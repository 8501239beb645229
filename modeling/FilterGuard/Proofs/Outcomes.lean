import FilterGuard.Proofs.Readers

/-!
# What reading comes to

A reader decides by the next token, so what it does with the tokens up to the one at
which it stops or fails does not depend on what stands behind. The tokens that it takes
are derived, and those in front of a token that it refuses can be completed: whatever
is open can be closed.
-/

namespace FilterGuard.Grammar
open Parsing Text

/-- Whether tokens begin something that `P` holds of. -/
def Viable {α : Type} (P : List Token → α → Prop) (ts : List Token) : Prop :=
  ∃ more a, P (ts ++ more) a

/-- What a reader can come to on `ts`, if it is to take what `P` holds of. -/
inductive Outcome {α : Type} (P : List Token → α → Prop) (p : Parse α) (ts : List Token) : Prop
  | all {a} (h : p ts = .ok (a, [])) (ha : P ts a)
  | stops {front t rest a} (hts : ts = front ++ t :: rest)
      (h : ∀ rest, p (front ++ t :: rest) = .ok (a, t :: rest)) (ha : P front a)
  | refuses {front t rest} (expected) (hts : ts = front ++ t :: rest)
      (h : ∀ rest, p (front ++ t :: rest) = .error (unexpected expected t)) (hv : Viable P front)
  | ends {expected} (h : p ts = .error (.unexpectedEnd expected)) (hv : Viable P ts)
  | tooDeep {limit} (h : p ts = .error (.tooDeep limit))

theorem viable_of {α : Type} {P : List Token → α → Prop} {ts : List Token} {a : α} (h : P ts a) : Viable P ts :=
  ⟨[], a, by rwa [List.append_nil]⟩

theorem Viable.of_append {α : Type} {P : List Token → α → Prop} {ts more : List Token} (h : Viable P (ts ++ more)) :
    Viable P ts := by
  obtain ⟨more', a, ha⟩ := h
  exact ⟨more ++ more', a, by rwa [← List.append_assoc]⟩

namespace Outcome

variable {α β : Type} {P : List Token → α → Prop} {Q : List Token → β → Prop} {ts : List Token}

theorem exists_front {p : Parse α} (h : Outcome P p ts) {a : α} {rest : List Token} (hp : p ts = .ok (a, rest)) :
    ∃ front, ts = front ++ rest ∧ P front a := by
  cases h with
  | all h ha =>
    cases h.symm.trans hp
    exact ⟨ts, (List.append_nil ts).symm, ha⟩
  | stops hts h ha =>
    subst hts
    cases (h _).symm.trans hp
    exact ⟨_, rfl, ha⟩
  | refuses _ hts h =>
    subst hts
    cases (h _).symm.trans hp
  | ends h => cases h.symm.trans hp
  | tooDeep h => cases h.symm.trans hp

/-- Readers that go on in the same way wherever the first one may have stopped. -/
theorem bind_congr {p : Parse α} (h : Outcome P p ts) {f g : α → Parse β}
    (hfg : ∀ {front a rest}, ts = front ++ rest → rest.length ≤ ts.length → P front a → f a rest = g a rest) :
    (p ts >>= fun x => f x.1 x.2) = p ts >>= fun x => g x.1 x.2 := by
  cases hp : p ts with
  | error => rfl
  | ok x =>
    obtain ⟨front, hts, ha⟩ := h.exists_front hp
    exact hfg hts (by rw [hts]; simp) ha

theorem head?_append_cons (front rest rest' : List Token) (t : Token) :
    (front ++ t :: rest).head? = (front ++ t :: rest').head? := by
  cases front <;> rfl

theorem imp {p : Parse α} {P' : List Token → α → Prop} (h : Outcome P p ts) (hi : ∀ {ts a}, P ts a → P' ts a) :
    Outcome P' p ts := by
  have hv : ∀ {front}, Viable P front → Viable P' front := fun ⟨more, a, ha⟩ => ⟨more, a, hi ha⟩
  cases h with
  | all h ha => exact .all h (hi ha)
  | stops hts h ha => exact .stops hts h (hi ha)
  | refuses expected hts h hp => exact .refuses expected hts h (hv hp)
  | ends h hp => exact .ends h (hv hp)
  | tooDeep h => exact .tooDeep h

/-- A reader that goes on behind `front` as another one does, as long as the same token comes next. -/
theorem after {p q : Parse β} {front rest : List Token} (h : Outcome (fun ts => Q (front ++ ts)) q rest)
    (hp : ∀ rest', rest'.head? = rest.head? → p (front ++ rest') = q rest') : Outcome Q p (front ++ rest) := by
  cases h with
  | all h ha => exact .all ((hp rest rfl).trans h) ha
  | @stops mid t rest _ hts h ha =>
    subst hts
    refine .stops (List.append_assoc ..).symm (fun rest' => ?_) ha
    rw [List.append_assoc, hp _ (head?_append_cons ..), h]
  | @refuses mid t rest expected hts h hv =>
    subst hts
    obtain ⟨more, b, hb⟩ := hv
    refine .refuses expected (List.append_assoc ..).symm (fun rest' => ?_) ⟨more, b, by rwa [List.append_assoc]⟩
    rw [List.append_assoc, hp _ (head?_append_cons ..), h]
  | ends h hv =>
    obtain ⟨more, b, hb⟩ := hv
    exact .ends ((hp rest rfl).trans h) ⟨more, b, by rwa [List.append_assoc]⟩
  | tooDeep h => exact .tooDeep ((hp rest rfl).trans h)

/-- One reader after another: the second one goes on where the first one has stopped. -/
theorem bind {p : Parse α} {f : α → Parse β} (h : Outcome P p ts)
    (hf : ∀ {front a rest}, ts = front ++ rest → P front a → Outcome (fun ts => Q (front ++ ts)) (f a) rest)
    (hv : ∀ {front a}, P front a → Viable Q front) : Outcome Q (fun ts => p ts >>= fun x => f x.1 x.2) ts := by
  have hv : ∀ {front}, Viable P front → Viable Q front := fun ⟨_, _, ha⟩ => (hv ha).of_append
  cases h with
  | @all a h ha =>
    -- The second reader has no tokens, so it need only be followed on none.
    have hts := List.append_nil ts
    have hall := (hf hts.symm ha).after (p := fun ts => p ts >>= fun x => f x.1 x.2) fun rest' hr => by
      rw [List.head?_eq_none_iff.mp hr, hts]
      exact ok_bind h _
    rwa [hts] at hall
  | @stops front t rest a hts h ha =>
    have hstop := (hf hts ha).after (p := fun ts => p ts >>= fun x => f x.1 x.2) fun rest' hr => by
      obtain ⟨rest', rfl⟩ := List.head?_eq_some_iff.mp hr
      exact ok_bind (h rest') _
    rwa [← hts] at hstop
  | refuses expected hts h hp => exact .refuses expected hts (fun rest => by rw [h]; rfl) (hv hp)
  | ends h hp => exact .ends (by rw [h]; rfl) (hv hp)
  | tooDeep h => exact .tooDeep (by rw [h]; rfl)

theorem refusesFirst {p : Parse α} {t : Token} {rest : List Token} (expected : Expected)
    (h : ∀ rest, p (t :: rest) = .error (unexpected expected t)) (hv : Viable P []) : Outcome P p (t :: rest) :=
  .refuses expected (List.nil_append (t :: rest)).symm h hv

theorem cons {p q : Parse β} {t : Token} {rest : List Token} (h : Outcome (fun ts => Q (t :: ts)) q rest)
    (hp : ∀ rest', rest'.head? = rest.head? → p (t :: rest') = q rest') : Outcome Q p (t :: rest) :=
  @after β Q p q [t] rest h hp

theorem congr {p q : Parse β} (h : Outcome Q q ts) (hp : ∀ ts', ts'.head? = ts.head? → p ts' = q ts') :
    Outcome Q p ts :=
  @after β Q p q [] ts h hp

theorem leaf {a : α} (ha : P [] a) : Outcome P (fun ts => .ok (a, ts)) ts := by
  cases ts with
  | nil => exact .all rfl ha
  | cons t rest => exact .stops (List.nil_append (t :: rest)).symm (fun _ => rfl) ha

theorem expect {kind : TokenKind} {expected : Expected} {p : Parse α} (hv : Viable P [])
    (hp : ∀ {t rest}, ts = t :: rest → t.kind = kind → Outcome (fun ts => P (t :: ts)) p rest) :
    Outcome P (fun ts => Parsing.expect kind expected ts >>= p) ts := by
  cases ts with
  | nil => exact .ends rfl hv
  | cons t rest =>
    by_cases ht : t.kind = kind
    · exact (hp rfl ht).cons fun rest' _ => ok_bind (expect_kind ht expected rest') _
    · refine .refusesFirst expected (fun rest => ?_) hv
      rw [Parsing.expect, if_neg ht]
      rfl

end Outcome

/-! ## Levels of operators -/

section
variable {p : Parse Expr} {join? : Token → Option Join} {k : Nat} (hp : ∀ ts, Outcome (Level k) p ts)
include hp

/-- A round takes a token at least, so more rounds than there are tokens make no difference. -/
theorem chain_fuel : ∀ {fuel fuel' : Nat} (left : Expr) {ts : List Token}, ts.length ≤ fuel → ts.length ≤ fuel' →
    chain p join? fuel left ts = chain p join? fuel' left ts
  | fuel, fuel', left, [], _, _ => by cases fuel <;> cases fuel' <;> rfl
  | fuel + 1, fuel' + 1, left, t :: ts, h, h' => by
    rw [List.length_cons] at h h'
    rw [chain, chain]
    cases join? t with
    | none => rfl
    | some join =>
      exact (hp ts).bind_congr (f := fun right => chain p join? fuel (join left right)) fun _ hl _ =>
        chain_fuel _ (by omega) (by omega)

theorem chain_cons {t : Token} {join : Join} (ht : join? t = some join) (left : Expr) (ts : List Token) :
    chain p join? (t :: ts).length left (t :: ts) =
      p ts >>= fun x => chain p join? x.2.length (join left x.1) x.2 := by
  rw [List.length_cons, chain, ht]
  exact (hp ts).bind_congr (f := fun right => chain p join? ts.length (join left right)) fun _ hl _ =>
    chain_fuel hp _ hl (Nat.le_refl _)

theorem outcome_chain (hj : Agrees join? k) : ∀ (ts : List Token) {l : List Token} {left : Expr}, Level (k + 1) l left →
    Outcome (fun ts => Level (k + 1) (l ++ ts)) (fun ts => chain p join? ts.length left ts) ts
  | [], l, left, hl => .all rfl (by rwa [List.append_nil])
  | t :: rest, l, left, hl => by
    cases ht : join? t with
    | none =>
      refine Outcome.congr (.leaf (by rwa [List.append_nil])) fun ts' hts' => ?_
      obtain ⟨rest', rfl⟩ := List.head?_eq_some_iff.mp hts'
      rw [List.length_cons, chain, ht]
    | some join =>
      have hjoin : ∀ {r right}, Level k r right → Level (k + 1) (l ++ t :: r) (join left right) :=
        fun hr => .join hl ((hj t join).mp ht) hr rfl
      let behind (right : Expr) : Parse Expr := fun ts => chain p join? ts.length (join left right) ts
      refine Outcome.cons ((hp rest).bind (f := behind) (fun {r right rest'} hrest hr => ?_)
        fun hr => viable_of (hjoin hr)) fun rest' _ => chain_cons hp ht left rest'
      have hlen : rest'.length < (t :: rest).length := by
        rw [hrest, List.length_cons, List.length_append]
        omega
      have hmore := outcome_chain hj rest' (hjoin hr)
      simpa only [List.append_assoc, List.cons_append] using hmore
termination_by ts => ts.length

theorem outcome_leftAssoc (hj : Agrees join? k) (ts : List Token) : Outcome (Level (k + 1)) (leftAssoc p join?) ts :=
  (hp ts).bind (fun _ h => outcome_chain hp hj _ (.tighter h)) fun h => viable_of (.tighter h)

end

theorem outcome_stratified {p : Parse Expr} (hp : ∀ ts, Outcome Unary p ts) (ts : List Token) :
    Outcome Derives (stratified p) ts := by
  have h₀ : ∀ ts, Outcome (Level 0) p ts := fun ts => (hp ts).imp .operand
  have h₁ := outcome_leftAssoc h₀ agrees_multiplicative
  have h₂ := outcome_leftAssoc h₁ agrees_additive
  have h₃ := outcome_leftAssoc h₂ agrees_comparison
  have h₄ := outcome_leftAssoc h₃ agrees_and
  exact outcome_leftAssoc h₄ agrees_or ts

/-! ## Items -/

section
variable {expression : Parse Expr} (he : ∀ ts, Outcome Derives expression ts)
include he

theorem commaSeparated_fuel : ∀ {fuel fuel' : Nat} {ts : List Token}, ts.length < fuel → ts.length < fuel' →
    commaSeparated expression fuel ts = commaSeparated expression fuel' ts
  | fuel + 1, fuel' + 1, ts, h, h' => by
    rw [commaSeparated_succ, commaSeparated_succ]
    exact (he ts).bind_congr fun _ hl _ =>
      itemsBehind_congr _ fun rest hrest => commaSeparated_fuel (by omega) (by omega)

theorem itemsOf_eq (ts : List Token) :
    itemsOf expression ts = expression ts >>= fun x => itemsBehind (itemsOf expression) x.1 x.2 := by
  rw [itemsOf, commaSeparated_succ]
  exact (he ts).bind_congr fun _ hl _ =>
    itemsBehind_congr _ fun rest hrest => commaSeparated_fuel he (by omega) (Nat.lt_succ_self _)

theorem outcome_items (ts : List Token) : Outcome Items (itemsOf expression) ts := by
  refine Outcome.congr ((he ts).bind (f := itemsBehind (itemsOf expression)) (fun {front first rest} hts hfirst => ?_)
    fun h => viable_of (.one h)) fun ts' _ => itemsOf_eq he ts'
  obtain ⟨c, rest', rfl, hc⟩ | hstop := head_cases .comma rest
  · have hlen : rest'.length < ts.length := by
      rw [hts, List.length_append, List.length_cons]
      omega
    have hmore : ∀ {back items}, Items back items → Items (front ++ c :: back) (first :: items) :=
      fun hi => .more hfirst hc hi
    refine Outcome.cons ((outcome_items rest').bind (f := fun items ts => .ok (first :: items, ts))
      (fun _ hi => .leaf ?_) fun hi => viable_of (hmore hi)) fun ts' _ => itemsBehind_comma _ first hc ts'
    rw [List.append_nil]
    exact hmore hi
  · refine Outcome.congr (.leaf ?_) fun ts' hts' => itemsBehind_stop _ first (hts' ▸ hstop)
    rw [List.append_nil]
    exact .one hfirst
termination_by ts.length

end

/-! ## Operands -/

def closing : Token := ⟨.closeParen, ")", 0⟩

def zero : Token := ⟨.literal (.int32 0), "0", 0⟩

theorem primary_zero : Primary [zero] (.literal (.int32 0)) := .literal rfl

theorem level_of_primary {ts : List Token} {e : Expr} (h : Primary ts e) : ∀ k, Level k ts e
  | 0 => .operand (.primary h)
  | k + 1 => .tighter (level_of_primary h k)

theorem primary_grouped {o c : Token} {ts : List Token} {items : List Expr} (ho : o.kind = .openParen)
    (hi : Items ts items) (hc : c.kind = .closeParen) : Primary (o :: (ts ++ [c])) (grouped items) := by
  have hlist : 2 ≤ items.length → Primary (o :: (ts ++ [c])) (grouped items) := fun hl => by
    rw [grouped_of_two hl]
    exact .list ho hi hl hc
  cases hi with
  | one h => exact .parens ho h hc
  | more _ _ hi => cases hi <;> exact hlist (by simp)

section
variable {expression : Parse Expr} (he : ∀ ts, Outcome Derives expression ts)
include he

theorem outcome_closedItems {α : Type} {P : List Token → α → Prop} {of : List Expr → α}
    (h : ∀ {front items c}, Items front items → c.kind = .closeParen → P (front ++ [c]) (of items))
    (expected : Expected) (ts : List Token) : Outcome P (closedItems expression expected of) ts := by
  have hv : ∀ {front items}, Items front items → Viable P front :=
    fun hi => ⟨[closing], _, h hi rfl⟩
  let close (items : List Expr) : Parse α := fun ts =>
    expect .closeParen expected ts >>= fun rest => .ok (of items, rest)
  exact (outcome_items he ts).bind (f := close) (fun _ hi => .expect (hv hi) fun _ hc => .leaf (h hi hc)) hv

theorem outcome_parenthesized {o : Token} (ho : o.kind = .openParen) (ts : List Token) :
    Outcome (fun ts => Primary (o :: ts)) (parenthesized expression) ts :=
  (outcome_closedItems he (fun hi hc => primary_grouped ho hi hc) .closeParen ts).congr
    fun ts' _ => parenthesized_eq expression ts'

theorem outcome_arguments {t o : Token} {name : String} (ht : t.kind = .identifier name) (hn : IsName name)
    (ho : o.kind = .openParen) (ts : List Token) :
    Outcome (fun ts args => Primary (t :: o :: ts) (.call name args)) (arguments expression) ts := by
  obtain ⟨c, rest, rfl, hc⟩ | hts := head_cases .closeParen ts
  · exact Outcome.cons (.leaf (.callEmpty ht hn ho hc)) fun rest' _ => arguments_empty expression hc rest'
  · refine (outcome_closedItems he (fun hi hc => ?_) .commaOrCloseParen ts).congr
      fun ts' hts' => arguments_eq expression (hts' ▸ hts)
    exact .call ht hn ho hi hc

theorem outcome_quantifierBody {l : List Token} {source : Expr} (hl : Path l source) {s t o : Token}
    {quantifier : Quantifier} (hs : s.kind = .slash) (ht : t.isKeyword quantifier.symbol = true)
    (ho : o.kind = .openParen) (ts : List Token) :
    Outcome (fun ts => Path (l ++ s :: t :: o :: ts)) (quantifierBody expression quantifier source) ts := by
  have hempty : Viable (fun ts => Path (l ++ s :: t :: o :: ts)) [] :=
    ⟨[closing], _, .quantifiedEmpty hl hs ht ho rfl⟩
  cases ts with
  | nil => exact .ends rfl hempty
  | cons v rest =>
    obtain ⟨kind, text, position⟩ := v
    cases kind with
    | closeParen => exact Outcome.cons (.leaf (.quantifiedEmpty hl hs ht ho rfl)) fun _ _ => rfl
    | identifier var =>
      have hwhole : ∀ {k bs body c}, k.kind = .colon → Level 5 bs body → c.kind = .closeParen →
          Path (l ++ s :: t :: o :: ⟨.identifier var, text, position⟩ :: k :: (bs ++ [c]))
            (.quantified quantifier source var body) := fun hk hb hc => .quantified hl hs ht ho rfl hk hb hc
      let close (body : Expr) : Parse Expr := fun ts =>
        expect .closeParen .closeParen ts >>= fun ts => .ok (.quantified quantifier source var body, ts)
      refine Outcome.cons (.expect ?_ fun {k rest'} _ hk => ?_) fun _ _ => rfl
      · exact ⟨[⟨.colon, ":", 0⟩, zero, closing], _, hwhole rfl (level_of_primary primary_zero 5) rfl⟩
      · have hv : ∀ {bs body}, Level 5 bs body →
            Viable (fun ts => Path (l ++ s :: t :: o :: ⟨.identifier var, text, position⟩ :: k :: ts)) bs :=
          fun hb => ⟨[closing], _, hwhole hk hb rfl⟩
        exact (he rest').bind (f := close) (fun _ hb => .expect (hv hb) fun _ hc => .leaf (hwhole hk hb hc)) hv
    | _ => exact .refusesFirst .lambdaVariable (fun _ => rfl) hempty

theorem path_fuel : ∀ {fuel fuel' : Nat} {l : List Token} {owner : Expr}, Path l owner → ∀ {ts : List Token},
    ts.length ≤ fuel → ts.length ≤ fuel' → path expression fuel owner ts = path expression fuel' owner ts
  | fuel, fuel', l, owner, hl, [], _, _ => by
    have hnil : ∀ t ∈ ([] : List Token).head?, t.kind ≠ .slash := by simp
    rw [path_end hnil, path_end hnil]
  | fuel + 1, fuel' + 1, l, owner, hl, s :: ts, h, h' => by
    cases segment (s :: ts) with
    | none hts => rw [path_end hts, path_end hts]
    | missing hs => rw [path_missing hs, path_missing hs]
    | unnamed hs ht => rw [path_unnamed hs ht, path_unnamed hs ht]
    | member hs ht hr =>
      simp only [List.length_cons] at h h'
      rw [path_member hs ht hr, path_member hs ht hr]
      exact path_fuel (.member hl hs ht) (by omega) (by omega)
    | @quantifier _ _ _ rest q hs ht ho =>
      simp only [List.length_cons] at h h'
      rw [path_quantifierBody hs ht ho, path_quantifierBody hs ht ho]
      exact (outcome_quantifierBody he hl hs ht ho rest).bind_congr fun _ hrest hx =>
        path_fuel hx (by omega) (by omega)

theorem outcome_path (ts : List Token) {l : List Token} {owner : Expr} (hl : Path l owner) :
    Outcome (fun ts => Path (l ++ ts)) (fun ts => path expression ts.length owner ts) ts := by
  have hv : ∀ {s}, s.kind = .slash → Viable (fun ts => Path (l ++ ts)) [s] := fun hs =>
    ⟨[⟨.identifier "x", "x", 0⟩], _, .member hl hs rfl⟩
  cases segment ts with
  | none hts => exact (Outcome.leaf (by rwa [List.append_nil])).congr fun ts' hts' => path_end (hts' ▸ hts)
  | missing hs => exact .ends (path_missing hs _ owner) (hv hs)
  | unnamed hs ht => exact .refuses .propertyName rfl (fun rest => path_unnamed hs ht _ owner rest) (hv hs)
  | @member s t name rest hs ht hr =>
    have hmember := Path.member hl hs ht
    have h := outcome_path rest hmember
    simp only [List.append_assoc] at h
    refine h.after (Q := fun ts => Path (l ++ ts)) fun rest' hrest' => ?_
    have hr' : ∀ q, Quantifier.ofWord? name = some q → ¬ Opens rest' := fun q hq ho => hr q hq (ho.of_head hrest')
    exact (path_member hs ht hr').trans (path_fuel he hmember (Nat.le_succ _) (Nat.le_refl _))
  | @quantifier s t o rest q hs ht ho =>
    -- What follows the quantifier goes on with a longer path, in as many rounds as tokens are left.
    have hmore : ∀ {front e rest'}, rest = front ++ rest' → Path (l ++ s :: t :: o :: front) e →
        Outcome (fun ts => Path (l ++ s :: t :: o :: (front ++ ts)))
          (fun ts => path expression ts.length e ts) rest' := by
      intro front e rest' hrest hx
      have hlen : rest'.length < (s :: t :: o :: rest).length := by
        rw [hrest]
        simp only [List.length_cons, List.length_append]
        omega
      have h := outcome_path rest' hx
      simpa only [List.append_assoc, List.cons_append] using h
    have h := (outcome_quantifierBody he hl hs ht ho rest).bind (Q := fun ts => Path (l ++ s :: t :: o :: ts))
      (f := fun owner ts => path expression ts.length owner ts) hmore fun h => viable_of h
    refine @Outcome.after _ (fun ts => Path (l ++ ts)) _ _ [s, t, o] rest h fun rest' _ => ?_
    refine (path_quantifierBody hs ht ho _ owner rest').trans ?_
    exact (outcome_quantifierBody he hl hs ht ho rest').bind_congr fun _ hrest hx =>
      path_fuel he hx (Nat.le_succ_of_le (Nat.le_succ_of_le hrest)) (Nat.le_refl _)
termination_by ts.length

theorem outcome_named {t : Token} {name : String} (ht : t.kind = .identifier name)
    (hnot : sameName name "not" = false) (ts : List Token) :
    Outcome (fun ts => Primary (t :: ts)) (named expression name) ts := by
  cases hw : wordLiteral? name with
  | some value =>
    obtain ⟨word, hm, hn⟩ := wordLiteral?_eq_some.mp hw
    exact (Outcome.leaf (.word hm (isKeyword_iff.mpr ⟨name, ht, hn⟩))).congr fun ts' _ => by simp only [named, hw]
  | none =>
    have hn := isName_iff.mpr ⟨hnot, hw⟩
    obtain ⟨o, rest, rfl, ho⟩ | hts := head_cases .openParen ts
    · let call (args : List Expr) : Parse Expr := fun ts => .ok (.call name args, ts)
      have h := (outcome_arguments he ht hn ho rest).bind (Q := fun ts => Primary (t :: o :: ts)) (f := call)
        (fun _ h => .leaf (by rwa [List.append_nil])) fun h => viable_of h
      refine h.cons (Q := fun ts => Primary (t :: ts)) fun rest' _ => ?_
      obtain ⟨_, _, _⟩ := o
      cases ho
      rw [named, hw]
      rfl
    · have h := outcome_path he ts (.name ht hn)
      refine (h.imp .path).congr (Q := fun ts => Primary (t :: ts)) fun ts' hts' => named_path hw fun ho => ?_
      exact not_opens_of_head hts (ho.of_head hts')

omit he in
theorem outcome_negation {operand : Parse Expr} (ho : ∀ ts, Outcome Unary operand ts) {t : Token} {op : UnaryOp}
    (hop : ∀ {ts e}, Unary ts e → Unary (t :: ts) (.unary op e)) (ts : List Token) :
    Outcome (fun ts => Unary (t :: ts)) (negation operand op) ts := by
  let apply (e : Expr) : Parse Expr := fun ts => .ok (.unary op e, ts)
  refine (ho ts).bind (Q := fun ts => Unary (t :: ts)) (f := apply) (fun _ h => .leaf ?_) fun h => viable_of (hop h)
  rw [List.append_nil]
  exact hop h

theorem outcome_operandOf {operand : Parse Expr} (ho : ∀ ts, Outcome Unary operand ts) (ts : List Token) :
    Outcome Unary (operandOf expression operand) ts := by
  have hv : Viable Unary [] := ⟨[zero], _, .primary primary_zero⟩
  cases ts with
  | nil => exact .ends rfl hv
  | cons t rest =>
    cases ht : t.kind with
    | identifier name =>
      by_cases hnot : sameName name "not" = true
      · refine (outcome_negation ho (.not (isKeyword_iff.mpr ⟨name, ht, hnot⟩)) rest).cons fun rest' _ => ?_
        rw [operandOf, ht]
        exact if_pos hnot
      · have hnot := Bool.eq_false_iff.mpr hnot
        exact ((outcome_named he ht hnot rest).imp .primary).cons (Q := Unary) fun rest' _ =>
          operandOf_identifier ht hnot rest'
    | minus => exact (outcome_negation ho (.minus ht) rest).cons fun rest' _ => by rw [operandOf, ht]
    | openParen =>
      exact ((outcome_parenthesized he ht rest).imp .primary).cons (Q := Unary) fun rest' _ => by rw [operandOf, ht]
    | literal value =>
      exact (Outcome.leaf (.primary (.literal ht))).cons (Q := Unary) fun rest' _ => by rw [operandOf, ht]
    | _ => exact .refusesFirst .expression (fun rest' => by rw [operandOf, ht]) hv

end

theorem outcome_exhausted (limit : Nat) (P : List Token → Expr → Prop) (ts : List Token) :
    Outcome P (exhausted limit) ts :=
  .tooDeep rfl

theorem outcome_operand (limit : Nat) : ∀ room ts, Outcome Unary (operand limit room) ts
  | 0 => outcome_operandOf (outcome_exhausted limit _) (outcome_exhausted limit _)
  | room + 1 => outcome_operandOf (outcome_stratified (outcome_operand limit room)) (outcome_operand limit room)

theorem outcome_expression (limit : Nat) : ∀ room ts, Outcome Derives (expression limit room) ts
  | 0 => outcome_exhausted limit _
  | room + 1 => outcome_stratified (outcome_operand limit room)

end FilterGuard.Grammar
