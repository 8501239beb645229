import FilterGuard.Proofs.Outcomes

/-!
# Parsing and derivations

Every reader takes a sequence of tokens that its part of the grammar derives, and
it takes each such sequence, whatever stands behind it that could not have
belonged to it. So parsing succeeds on exactly what the grammar derives, and
nothing derives two expressions.
-/

namespace FilterGuard.Grammar
open Parsing Text

/-! ## What is read is derived -/

/-- A reader of sequences that `P` holds of. -/
def Reads {α : Type} (P : List Token → α → Prop) (p : Parse α) : Prop :=
  ∀ ts a rest, p ts = .ok (a, rest) → ∃ front, ts = front ++ rest ∧ P front a

theorem reads_expression (limit room : Nat) : Reads Derives (expression limit room) :=
  fun ts _ _ h => (outcome_expression limit room ts).exists_front h

/-! ## What is derived is read -/

/-- Tokens behind which nothing more belongs to an expression of a level: no operator
of a tighter level, nothing that makes a call or goes on with a path. -/
def Stops (k : Nat) : List Token → Prop
  | [] => True
  | t :: _ => t.kind ≠ .openParen ∧ t.kind ≠ .slash ∧ ∀ j < k, ∀ f, ¬ Operator j t f

theorem Stops.mono {j k : Nat} {ts : List Token} (h : Stops k ts) (hjk : j ≤ k) : Stops j ts := by
  cases ts with
  | nil => trivial
  | cons t ts => exact ⟨h.1, h.2.1, fun i hi => h.2.2 i (Nat.lt_of_lt_of_le hi hjk)⟩

theorem stops_operator {k : Nat} {t : Token} {f : Join} (ht : Operator k t f) (ts : List Token) :
    Stops k (t :: ts) := by
  obtain ⟨name, hk, -⟩ := operator_iff.mp ht
  refine ⟨hk ▸ nofun, hk ▸ nofun, fun j hj g hg => ?_⟩
  exact absurd (level_unique hg ht) (Nat.ne_of_lt hj)

theorem stops_of_kind {k : Nat} {t : Token} (ht : t.kind = .comma ∨ t.kind = .closeParen) (ts : List Token) :
    Stops k (t :: ts) := by
  refine ⟨?_, ?_, fun j _ f hf => ?_⟩
  · obtain ht | ht := ht <;> exact ht ▸ nofun
  · obtain ht | ht := ht <;> exact ht ▸ nofun
  · obtain ⟨name, hk, -⟩ := operator_iff.mp hf
    obtain ht | ht := ht <;> cases ht.symm.trans hk

/-- A reader that takes every sequence of at most `n` tokens that `P` holds of, and
stops there if what follows does. -/
def Accepts (P : List Token → Expr → Prop) (k n : Nat) (p : Parse Expr) : Prop :=
  ∀ ts e rest, P ts e → ts.length ≤ n → Stops k rest → p (ts ++ rest) = .ok (e, rest)

theorem chain_stop {p : Parse Expr} {join? : Token → Option Join} {k : Nat} (hj : Agrees join? k) (fuel : Nat)
    (e : Expr) {rest : List Token} (hr : Stops (k + 1) rest) : chain p join? fuel e rest = .ok (e, rest) := by
  cases fuel with
  | zero => rfl
  | succ fuel =>
    cases rest with
    | nil => rfl
    | cons t rest =>
      have hn : join? t = none := by
        cases ht : join? t with
        | none => rfl
        | some f => exact absurd ((hj t f).mp ht) (hr.2.2 k (Nat.lt_succ_self k) f)
      rw [chain, hn]

/-- Reading a side of operators comes to where the loop goes on behind it. -/
theorem exists_chain {p : Parse Expr} {join? : Token → Option Join} {k n : Nat} (hp : Accepts (Level k) k n p)
    (hj : Agrees join? k) {ts : List Token} {e : Expr} (h : Level (k + 1) ts e) (hn : ts.length ≤ n)
    {rest : List Token} (hr : Stops k rest) :
    ∃ fuel, rest.length ≤ fuel ∧ leftAssoc p join? (ts ++ rest) = chain p join? fuel e rest := by
  cases h with
  | tighter h =>
    refine ⟨rest.length, Nat.le_refl _, ?_⟩
    rw [leftAssoc, hp _ _ _ h hn hr]
    rfl
  | @join _ l t r left right _ f hl ht hright he =>
    rw [List.length_append, List.length_cons] at hn
    -- Tighter operators stop before `t`, so the left side is read up to there, and `t` takes one round more.
    obtain ⟨fuel, hfuel, hc⟩ := exists_chain hp hj hl (by omega) (stops_operator ht (r ++ rest))
    rw [List.length_cons, List.length_append] at hfuel
    obtain ⟨fuel, rfl⟩ : ∃ f, fuel = f + 1 := ⟨fuel - 1, by omega⟩
    refine ⟨fuel, by omega, ?_⟩
    rw [List.append_assoc, List.cons_append, hc, chain, (hj t _).mpr ht]
    dsimp only
    rw [hp _ _ _ hright (by omega) hr, he]
    rfl
termination_by ts.length

theorem accepts_leftAssoc {p : Parse Expr} {join? : Token → Option Join} {k n : Nat} (hp : Accepts (Level k) k n p)
    (hj : Agrees join? k) : Accepts (Level (k + 1)) (k + 1) n (leftAssoc p join?) := by
  intro ts e rest h hn hr
  obtain ⟨fuel, -, hc⟩ := exists_chain hp hj h hn (hr.mono (Nat.le_succ k))
  rw [hc, chain_stop hj fuel e hr]

theorem accepts_stratified {p : Parse Expr} {n : Nat} (hp : Accepts Unary 0 n p) :
    Accepts Derives 5 n (stratified p) := by
  have h₀ : Accepts (Level 0) 0 n p := fun ts e rest h hn hr => by
    cases h with
    | operand h => exact hp ts e rest h hn hr
  have h₁ := accepts_leftAssoc h₀ agrees_multiplicative
  have h₂ := accepts_leftAssoc h₁ agrees_additive
  have h₃ := accepts_leftAssoc h₂ agrees_comparison
  have h₄ := accepts_leftAssoc h₃ agrees_and
  exact accepts_leftAssoc h₄ agrees_or

/-! ### What one step of a reader does -/

section
variable {expression operand : Parse Expr}

theorem quantifierBody_empty (quantifier : Quantifier) (source : Expr) {c : Token} (hc : c.kind = .closeParen)
    (rest : List Token) :
    quantifierBody expression quantifier source (c :: rest) = .ok (.quantifiedEmpty quantifier source, rest) := by
  obtain ⟨_, _, _⟩ := c
  cases hc
  rfl

theorem not_opens_of_stops {k : Nat} {ts : List Token} (h : Stops k ts) : ¬ Opens ts := by
  rintro ⟨t, rest, rfl, ho⟩
  exact h.1 ho

theorem path_stop (fuel : Nat) (owner : Expr) {rest : List Token} (hr : Stops 0 rest) :
    path expression fuel owner rest = .ok (owner, rest) := by
  refine path_end fun t ht => ?_
  obtain ⟨more, rfl⟩ := List.head?_eq_some_iff.mp ht
  exact hr.2.1

theorem operandOf_call {t o : Token} {name : String} (ht : t.kind = .identifier name)
    (hn : IsName name) (ho : o.kind = .openParen) {ts rest : List Token} {args : List Expr}
    (ha : arguments expression ts = .ok (args, rest)) :
    operandOf expression operand (t :: o :: ts) = .ok (.call name args, rest) := by
  obtain ⟨hnot, hw⟩ := isName_iff.mp hn
  obtain ⟨_, _, _⟩ := o
  cases ho
  rw [operandOf_identifier ht hnot]
  unfold named
  rw [hw]
  exact ok_bind ha _

theorem operandOf_name {t : Token} {name : String} (ht : t.kind = .identifier name)
    (hn : IsName name) {rest : List Token} (hr : ¬ Opens rest) :
    operandOf expression operand (t :: rest) = path expression rest.length (.name name) rest := by
  obtain ⟨hnot, hw⟩ := isName_iff.mp hn
  rw [operandOf_identifier ht hnot, named_path hw hr]

/-- Whether reading an operand from `ts` comes to where the loop goes on behind the path `e`. -/
def Reaches (expression operand : Parse Expr) (ts : List Token) (e : Expr) (rest : List Token) : Prop :=
  ∃ fuel, rest.length ≤ fuel ∧ operandOf expression operand ts = path expression fuel e rest

theorem Reaches.step {ts : List Token} {owner e : Expr} {s : Token} {more rest : List Token}
    (h : Reaches expression operand ts owner (s :: more))
    (hs : ∀ fuel, path expression (fuel + 1) owner (s :: more) = path expression fuel e rest)
    (hl : rest.length ≤ more.length) : Reaches expression operand ts e rest := by
  obtain ⟨fuel, hf, hp⟩ := h
  rw [List.length_cons] at hf
  obtain ⟨fuel, rfl⟩ : ∃ f, fuel = f + 1 := ⟨fuel - 1, by omega⟩
  exact ⟨fuel, by omega, hp.trans (hs fuel)⟩

end

/-! ### What the readers take -/

section
variable {expression : Parse Expr} {n : Nat} (he : Accepts Derives 5 n expression)
include he

theorem commaSeparated_items {ts : List Token} {es : List Expr} (h : Items ts es) (hn : ts.length ≤ n) {fuel : Nat}
    (hf : ts.length < fuel) {c : Token} (hc : c.kind = .closeParen) (rest : List Token) :
    commaSeparated expression fuel (ts ++ c :: rest) = .ok (es, c :: rest) := by
  obtain ⟨fuel, rfl⟩ : ∃ f, fuel = f + 1 := ⟨fuel - 1, by omega⟩
  cases h with
  | one h =>
    obtain ⟨_, text, position⟩ := c
    cases hc
    exact ok_bind (he _ _ _ h hn (stops_of_kind (.inr rfl) rest)) _
  | @more ts comma more e es h hk hi =>
    rw [List.length_append, List.length_cons] at hn hf
    obtain ⟨_, text, position⟩ := comma
    cases hk
    have hm := commaSeparated_items hi (by omega) (show more.length < fuel by omega) hc rest
    rw [List.append_assoc]
    exact (ok_bind (he _ _ _ h (by omega) (stops_of_kind (.inl rfl) _)) _).trans (ok_bind hm _)
termination_by ts.length

/-- The rounds that a reader of items begins with are enough. -/
theorem commaSeparated_all {ts : List Token} {es : List Expr} (h : Items ts es) (hn : ts.length ≤ n) {c : Token}
    (hc : c.kind = .closeParen) (rest : List Token) :
    commaSeparated expression ((ts ++ c :: rest).length + 1) (ts ++ c :: rest) = .ok (es, c :: rest) := by
  refine commaSeparated_items he h hn ?_ hc rest
  rw [List.length_append]
  omega

theorem closedItems_items {α : Type} (expected : Expected) (of : List Expr → α) {ts : List Token} {es : List Expr}
    (h : Items ts es) (hn : ts.length ≤ n) {c : Token} (hc : c.kind = .closeParen) (rest : List Token) :
    closedItems expression expected of (ts ++ c :: rest) = .ok (of es, rest) :=
  (ok_bind (commaSeparated_all he h hn hc rest) _).trans (ok_bind (expect_kind hc _ rest) _)

theorem parenthesized_items {ts : List Token} {es : List Expr} (h : Items ts es) (hn : ts.length ≤ n) {c : Token}
    (hc : c.kind = .closeParen) (rest : List Token) :
    parenthesized expression (ts ++ c :: rest) = .ok (grouped es, rest) := by
  rw [parenthesized_eq]
  exact closedItems_items he _ grouped h hn hc rest

theorem arguments_items {ts : List Token} {es : List Expr} (h : Items ts es) (hn : ts.length ≤ n) {c : Token}
    (hc : c.kind = .closeParen) (rest : List Token) : arguments expression (ts ++ c :: rest) = .ok (es, rest) := by
  -- No item starts with the parenthesis that would end an empty list of arguments.
  have hts : ∀ t ∈ (ts ++ c :: rest).head?, t.kind ≠ .closeParen := by
    obtain ⟨t, ts', rfl, ht⟩ := h.starts
    rintro _ ⟨⟩
    exact ht
  rw [arguments_eq expression hts]
  exact closedItems_items he _ id h hn hc rest

theorem quantifierBody_expression (quantifier : Quantifier) (source : Expr) {v k c : Token} {var : String}
    {ts : List Token} {body : Expr} (hv : v.kind = .identifier var) (hk : k.kind = .colon) (h : Derives ts body)
    (hn : ts.length ≤ n) (hc : c.kind = .closeParen) (rest : List Token) :
    quantifierBody expression quantifier source (v :: k :: (ts ++ c :: rest)) =
      .ok (.quantified quantifier source var body, rest) := by
  obtain ⟨_, text, position⟩ := v
  cases hv
  refine (ok_bind (expect_kind hk _ _) _).trans ((ok_bind (he _ _ _ h hn (stops_of_kind (.inr hc) rest)) _).trans ?_)
  exact ok_bind (expect_kind hc _ rest) _

theorem reaches_path (operand : Parse Expr) : ∀ {ts : List Token} {e : Expr}, Path ts e → ts.length ≤ n + 1 →
    ∀ {rest : List Token}, ¬ Opens rest → Reaches expression operand (ts ++ rest) e rest
  | _, _, .name ht hname, _, rest, hr => ⟨rest.length, Nat.le_refl _, operandOf_name ht hname hr⟩
  | _, _, .member h hs ht, hn, rest, hr => by
    rw [List.length_append] at hn
    rw [List.append_assoc]
    exact (reaches_path operand h (by omega) (not_opens_cons hs nofun _)).step
      (fun _ => path_member hs ht fun _ _ => hr) (by simp)
  | _, _, .quantifiedEmpty h hs ht ho hc, hn, rest, hr => by
    rw [List.length_append] at hn
    rw [List.append_assoc]
    exact (reaches_path operand h (by omega) (not_opens_cons hs nofun _)).step
      (fun _ => path_quantifier hs ht ho (quantifierBody_empty _ _ hc rest)) (by simp; omega)
  | _, _, .quantified h hs ht ho hv hk hb hc, hn, rest, hr => by
    simp only [List.length_append, List.length_cons] at hn
    have hp := (reaches_path operand h (by omega) (not_opens_cons hs nofun _)).step
      (fun _ => path_quantifier hs ht ho (quantifierBody_expression he _ _ hv hk hb (by omega) hc rest))
      (by simp; omega)
    simpa using hp

theorem accepts_primary {operand : Parse Expr} : Accepts Primary 0 (n + 1) (operandOf expression operand) := by
  intro ts e rest h hn hr
  cases h with
  | literal ht => rw [List.singleton_append, operandOf, ht]
  | @word t word value hw ht =>
    obtain ⟨name, ht, hname⟩ := isKeyword_iff.mp ht
    rw [List.singleton_append, operandOf_identifier ht (not_not hw hname)]
    unfold named
    rw [wordLiteral?_eq_some.mpr ⟨word, hw, hname⟩]
  | @callEmpty t o c name ht hname ho hc =>
    obtain ⟨_, _, _⟩ := c
    cases hc
    exact operandOf_call ht hname ho rfl
  | @call t o ts c name args ht hname ho ha hc =>
    simp only [List.length_cons, List.length_append] at hn
    rw [List.cons_append, List.cons_append, List.append_assoc]
    exact operandOf_call ht hname ho (arguments_items he ha (by omega) hc rest)
  | path h =>
    obtain ⟨fuel, -, hp⟩ := reaches_path he operand h hn (not_opens_of_stops hr)
    rw [hp, path_stop fuel e hr]
  | @parens o ts c e ho h hc =>
    simp only [List.length_cons, List.length_append] at hn
    rw [List.cons_append, List.append_assoc, operandOf, ho]
    exact parenthesized_items he (.one h) (by omega) hc rest
  | @list o ts c items ho h hl hc =>
    simp only [List.length_cons, List.length_append] at hn
    rw [List.cons_append, List.append_assoc, operandOf, ho, ← grouped_of_two hl]
    exact parenthesized_items he h (by omega) hc rest

theorem accepts_operandOf {operand : Parse Expr} (ho : Accepts Unary 0 n operand) :
    Accepts Unary 0 (n + 1) (operandOf expression operand) := by
  intro ts e rest h hn hr
  cases h with
  | @not t ts e ht h =>
    obtain ⟨name, ht, hname⟩ := isKeyword_iff.mp ht
    rw [List.cons_append, operandOf, ht]
    dsimp only
    rw [if_pos hname]
    exact ok_bind (ho _ _ _ h (Nat.le_of_succ_le_succ hn) hr) _
  | @minus t ts e ht h =>
    rw [List.cons_append, operandOf, ht]
    exact ok_bind (ho _ _ _ h (Nat.le_of_succ_le_succ hn) hr) _
  | primary h => exact accepts_primary he ts e rest h hn hr

end

theorem accepts_exhausted (limit : Nat) {P : List Token → Expr → Prop} (hP : ∀ {ts e}, P ts e → Starts ts) (k : Nat) :
    Accepts P k 0 (exhausted limit) := by
  intro ts e rest h hn _
  obtain ⟨t, more, rfl, -⟩ := hP h
  cases hn

theorem accepts_operand (limit : Nat) : ∀ room, Accepts Unary 0 (room + 1) (operand limit room)
  | 0 => accepts_operandOf (accepts_exhausted limit Level.starts 5) (accepts_exhausted limit Unary.starts 0)
  | room + 1 => accepts_operandOf (accepts_stratified (accepts_operand limit room)) (accepts_operand limit room)

theorem accepts_expression (limit room : Nat) : Accepts Derives 5 (room + 1) (expression limit (room + 1)) :=
  accepts_stratified (accepts_operand limit room)

/-! ## Parsing -/

theorem ofTokens_iff {limit : Nat} {ts : List Token} {e : Expr} :
    Expr.ofTokens limit ts = .ok e ↔ expression limit limit ts = .ok (e, []) := by
  constructor
  · intro h
    unfold Expr.ofTokens at h
    split at h
    · cases h
    · obtain ⟨⟨e', rest⟩, he, h⟩ := bind_ok h
      cases rest with
      | nil =>
        cases h
        exact he
      | cons => cases h
  · intro h
    obtain ⟨front, hfront, hd⟩ := reads_expression limit limit _ _ _ h
    obtain ⟨t, rest, rfl, -⟩ := hd.starts
    rw [List.append_nil] at hfront
    subst hfront
    exact ok_bind h _

/-- What parses is derived, whatever the limit. -/
theorem derives_of_ofTokens {limit : Nat} {ts : List Token} {e : Expr} (h : Expr.ofTokens limit ts = .ok e) :
    Derives ts e := by
  obtain ⟨front, rfl, hd⟩ := reads_expression limit limit _ _ _ (ofTokens_iff.mp h)
  rwa [List.append_nil]

theorem ofTokens_of_derives {limit : Nat} {ts : List Token} (h : ts.length ≤ limit) {e : Expr} (hd : Derives ts e) :
    Expr.ofTokens limit ts = .ok e := by
  obtain ⟨t, more, rfl, -⟩ := hd.starts
  obtain ⟨room, rfl⟩ : ∃ r, limit = r + 1 := ⟨limit - 1, by rw [List.length_cons] at h; omega⟩
  have he := accepts_expression (room + 1) room _ _ [] hd h trivial
  rw [List.append_nil] at he
  exact ok_bind he _

/-- Parsing succeeds on exactly the sequences of tokens that the grammar derives, if it is
given a place for each token, and no sequence derives two expressions. -/
theorem ofTokens_ok_iff (ts : List Token) :
    (∀ limit, ts.length < limit → ∀ e, Expr.ofTokens limit ts = .ok e ↔ Derives ts e) ∧
    ∀ e e', Derives ts e → Derives ts e' → e = e' := by
  refine ⟨fun limit h e => ⟨derives_of_ofTokens, ofTokens_of_derives (Nat.le_of_lt h)⟩, fun e e' he he' => ?_⟩
  have h := ofTokens_of_derives (Nat.le_refl _) he
  have h' := ofTokens_of_derives (Nat.le_refl _) he'
  exact Except.ok.inj (h.symm.trans h')

/-- `NOT any/ALL(not: x/not in (1, null)) or b sub c sub -d divby 2 eq f()`. -/
def sample : List Token :=
  let name (s : String) : Token := ⟨.identifier s, s, 0⟩
  let number (n : Int32) : Token := ⟨.literal (.int32 n), "", 0⟩
  let sign (kind : TokenKind) : Token := ⟨kind, "", 0⟩
  [name "NOT", name "any", sign .slash, name "ALL", sign .openParen, name "not", sign .colon, name "x", sign .slash,
   name "not", name "in", sign .openParen, number 1, sign .comma, name "null", sign .closeParen, sign .closeParen,
   name "or", name "b", name "sub", name "c", name "sub", sign .minus, name "d", name "divby", number 2, name "eq",
   name "f", sign .openParen, sign .closeParen]

theorem derives_sample :
    sample.length < 256 ∧ Derives sample (
      let number (n : Int32) := Expr.literal (.int32 n)
      .binary .or
        (.unary .not (.quantified .all (.name "any") "not"
          (.within (.member (.name "x") "not") (.list [number 1, .literal .null]))))
        (.binary .eq
          (.binary .sub (.binary .sub (.name "b") (.name "c")) (.binary .div (.unary .negate (.name "d")) (number 2)))
          (.call "f" []))) := by
  have hl : sample.length < 256 := by decide
  exact ⟨hl, ((ofTokens_ok_iff sample).1 256 hl _).mp rfl⟩

end FilterGuard.Grammar
