import FilterGuard.Proofs.Derivation

/-!
# Readers with something behind

A reader that has come to an end of its tokens reads the same where a closing
parenthesis stands behind them, up to that parenthesis. It looks at the kinds of
tokens only, and a higher limit leaves it as much room as before. So a reading can
be carried over to where its tokens are part of others.
-/

namespace FilterGuard.Parsing
open Grammar Text

/-- Tokens of the same kinds. -/
abbrev Alike (us ts : List Token) : Prop :=
  us.map Token.kind = ts.map Token.kind

/-- Tokens that are none or begin with a closing parenthesis. -/
def Closes (behind : List Token) : Prop :=
  ∀ t ∈ behind.head?, t.kind = .closeParen

/-- Whether a reading in front of other tokens gives what is read from `ts`, and leaves
tokens like those that are left of `ts`. -/
def Arrives {α : Type} (behind ts : List Token) (x : Except ExprError (α × List Token)) (a : α)
    (rest : List Token) : Prop :=
  ∃ back, x = .ok (a, back ++ behind) ∧ Alike back rest ∧ rest.length ≤ ts.length

/-- Whether `q` reads in front of other tokens what `p` reads alone. -/
def Carries {α : Type} (behind : List Token) (p q : Parse α) : Prop :=
  ∀ ⦃ts us a rest⦄, Alike us ts → p ts = .ok (a, rest) → Arrives behind ts (q (us ++ behind)) a rest

variable {behind : List Token}

theorem Alike.length {us ts : List Token} (h : Alike us ts) : us.length = ts.length := by
  simpa using congrArg List.length h

theorem Alike.cons {us ts : List Token} {t : Token} (h : Alike us (t :: ts)) :
    ∃ u us', us = u :: us' ∧ u.kind = t.kind ∧ Alike us' ts := by
  obtain ⟨u, us', rfl, hu, hus⟩ := List.map_eq_cons_iff.mp h
  exact ⟨u, us', rfl, hu, hus⟩

theorem stops_of_closes (hb : Closes behind) (k : Nat) : Stops k behind := by
  cases behind with
  | nil => trivial
  | cons t ts => exact stops_of_kind (.inr (hb t rfl)) ts

/-- No kind comes first that did not, but that of a closing parenthesis. -/
theorem head_behind (hb : Closes behind) {us ts : List Token} (h : Alike us ts) {kind : TokenKind}
    (hk : kind ≠ .closeParen) (hts : ∀ t ∈ ts.head?, t.kind ≠ kind) : ∀ u ∈ (us ++ behind).head?, u.kind ≠ kind := by
  cases ts with
  | nil =>
    cases us with
    | nil => exact fun u hu => (hb u hu).symm ▸ hk.symm
    | cons => cases h
  | cons t ts =>
    obtain ⟨u, us', rfl, hu, -⟩ := h.cons
    rintro _ ⟨⟩
    rw [hu]
    exact hts t rfl

theorem not_opens_behind (hb : Closes behind) {us ts : List Token} (h : Alike us ts) (hts : ¬ Opens ts) :
    ¬ Opens (us ++ behind) := by
  rintro ⟨u, rest, hu, ho⟩
  refine head_behind hb h (show TokenKind.openParen ≠ .closeParen from nofun) (fun t ht hk => hts ?_) u
    (by rw [hu]; rfl) ho
  obtain ⟨ts', rfl⟩ := List.head?_eq_some_iff.mp ht
  exact ⟨t, ts', rfl, hk⟩

theorem expect_behind (behind : List Token) {kind : TokenKind} {expected : Expected} {us ts rest : List Token}
    (h : Alike us ts) (hx : expect kind expected ts = .ok rest) :
    ∃ back, expect kind expected (us ++ behind) = .ok (back ++ behind) ∧ Alike back rest ∧
      rest.length < ts.length := by
  obtain ⟨t, rfl, ht⟩ := expect_ok hx
  obtain ⟨u, back, rfl, hu, hk⟩ := h.cons
  exact ⟨back, expect_kind (hu.trans ht) expected _, hk, Nat.lt_succ_self _⟩

/-! ## Levels of operators -/

theorem join?_congr {join? : Token → Option Join} {k : Nat} (hj : Agrees join? k) {t u : Token}
    (h : u.kind = t.kind) : join? u = join? t := by
  refine Option.ext fun f => ?_
  rw [hj, hj, operator_iff, operator_iff, h]

section
variable {p q : Parse Expr} (hp : Carries behind p q) (hb : Closes behind)
include hp hb

theorem arrives_chain {join? : Token → Option Join} {k : Nat} (hj : Agrees join? k) :
    ∀ {fuel fuel' : Nat} {left e : Expr} {ts us rest : List Token}, ts.length ≤ fuel → fuel ≤ fuel' → Alike us ts →
    chain p join? fuel left ts = .ok (e, rest) →
    Arrives behind ts (chain q join? fuel' left (us ++ behind)) e rest
  | fuel, fuel', left, e, [], us, rest, _, _, hus, h => by
    have hend : (e, rest) = (left, []) := by
      cases fuel <;> exact (Except.ok.inj h).symm
    cases hend
    cases List.map_eq_nil_iff.mp hus
    exact ⟨[], chain_stop hj fuel' left (stops_of_closes hb (k + 1)), rfl, Nat.le_refl _⟩
  | fuel + 1, fuel' + 1, left, e, t :: ts, us, rest, hl, hf, hus, h => by
    obtain ⟨u, us, rfl, hu, hus⟩ := hus.cons
    rw [List.cons_append, chain, join?_congr hj hu]
    rw [chain] at h
    cases hjoin : join? t with
    | none =>
      rw [hjoin] at h
      cases h
      exact ⟨u :: us, rfl, by simp [Alike, hu, hus], Nat.le_refl _⟩
    | some join =>
      rw [hjoin] at h
      obtain ⟨⟨right, ts'⟩, hr, h⟩ := bind_ok h
      obtain ⟨back, hr', hk, hn⟩ := hp hus hr
      have hl := Nat.le_of_succ_le_succ hl
      obtain ⟨back', hc, hk', hn'⟩ := arrives_chain hj (Nat.le_trans hn hl) (Nat.le_of_succ_le_succ hf) hk h
      exact ⟨back', (ok_bind hr' _).trans hc, hk', by rw [List.length_cons]; omega⟩

theorem carries_leftAssoc {join? : Token → Option Join} {k : Nat} (hj : Agrees join? k) :
    Carries behind (leftAssoc p join?) (leftAssoc q join?) := by
  intro ts us e rest hus h
  obtain ⟨⟨first, ts'⟩, hf, h⟩ := bind_ok h
  obtain ⟨back, hf', hk, hn⟩ := hp hus hf
  have hl : ts'.length ≤ (back ++ behind).length := by
    rw [List.length_append, hk.length]
    omega
  obtain ⟨back', hc, hk', hn'⟩ := arrives_chain hp hb hj (Nat.le_refl _) hl hk h
  exact ⟨back', (ok_bind hf' _).trans hc, hk', by omega⟩

theorem carries_stratified : Carries behind (stratified p) (stratified q) := by
  have h₁ := carries_leftAssoc hp hb agrees_multiplicative
  have h₂ := carries_leftAssoc h₁ hb agrees_additive
  have h₃ := carries_leftAssoc h₂ hb agrees_comparison
  have h₄ := carries_leftAssoc h₃ hb agrees_and
  exact carries_leftAssoc h₄ hb agrees_or

/-! ## Operands -/

omit hp hb in
theorem commaSeparated_one {fuel : Nat} {ts rest : List Token} {first : Expr} (h : p ts = .ok (first, rest))
    (hn : ∀ t ∈ rest.head?, t.kind ≠ .comma) : commaSeparated p (fuel + 1) ts = .ok ([first], rest) := by
  rw [commaSeparated_succ, ok_bind h]
  exact itemsBehind_stop _ first hn

theorem arrives_commaSeparated : ∀ {fuel fuel' : Nat} {es : List Expr} {ts us rest : List Token},
    ts.length < fuel → fuel ≤ fuel' → Alike us ts → commaSeparated p fuel ts = .ok (es, rest) →
    Arrives behind ts (commaSeparated q fuel' (us ++ behind)) es rest
  | fuel + 1, fuel' + 1, es, ts, us, rest, hl, hf, hus, h => by
    rw [commaSeparated_succ] at h
    obtain ⟨⟨first, ts'⟩, hfirst, h⟩ := bind_ok h
    obtain ⟨back, hfirst', hk, hn⟩ := hp hus hfirst
    obtain ⟨c, ts'', rfl, hc⟩ | hcomma := head_cases .comma ts'
    · rw [itemsBehind_comma _ first hc] at h
      obtain ⟨⟨more, rest'⟩, hm, h⟩ := bind_ok h
      cases h
      obtain ⟨c', back₁, rfl, hc', hk₁⟩ := hk.cons
      have hn : ts''.length < ts.length := hn
      obtain ⟨back', hm', hk', hn'⟩ := arrives_commaSeparated (by omega) (Nat.le_of_succ_le_succ hf) hk₁ hm
      refine ⟨back', ?_, hk', Nat.le_of_lt (Nat.lt_of_le_of_lt hn' hn)⟩
      rw [commaSeparated_succ, ok_bind hfirst', List.cons_append]
      exact (itemsBehind_comma _ first (hc'.trans hc) _).trans (ok_bind hm' _)
    · rw [itemsBehind_stop _ first hcomma] at h
      cases h
      exact ⟨back, commaSeparated_one hfirst' (head_behind hb hk nofun hcomma), hk, hn⟩

theorem carries_items : Carries behind (itemsOf p) (itemsOf q) := by
  intro ts us es rest hus h
  refine arrives_commaSeparated hp hb (Nat.lt_succ_self _) (Nat.succ_le_succ ?_) hus h
  rw [List.length_append, hus.length]
  omega

theorem arrives_closedItems {α : Type} {expected : Expected} {of : List Expr → α} {ts us rest : List Token} {a : α}
    (hus : Alike us ts) (h : closedItems p expected of ts = .ok (a, rest)) :
    Arrives behind ts (closedItems q expected of (us ++ behind)) a rest ∧ rest.length < ts.length := by
  obtain ⟨⟨items, ts'⟩, hi, h⟩ := bind_ok h
  obtain ⟨ts'', hx, h⟩ := bind_ok h
  cases h
  obtain ⟨back, hi', hk, hn⟩ := carries_items hp hb hus hi
  obtain ⟨back', hx', hk', hn'⟩ := expect_behind behind hk hx
  exact ⟨⟨back', (ok_bind hi' _).trans (ok_bind hx' _), hk', by omega⟩, by omega⟩

theorem carries_parenthesized : Carries behind (parenthesized p) (parenthesized q) := by
  intro ts us e rest hus h
  rw [parenthesized_eq] at h ⊢
  exact (arrives_closedItems hp hb hus h).1

theorem carries_arguments : Carries behind (arguments p) (arguments q) := by
  intro ts us args rest hus h
  obtain ⟨c, ts', rfl, hc⟩ | hts := head_cases .closeParen ts
  · rw [arguments_empty p hc] at h
    cases h
    obtain ⟨c', back, rfl, hc', hk⟩ := hus.cons
    exact ⟨back, arguments_empty q (hc'.trans hc) _, hk, Nat.le_succ _⟩
  · rw [arguments_eq p hts] at h
    obtain ⟨harrives, hlen⟩ := arrives_closedItems hp hb hus h
    have hus' : ∀ u ∈ (us ++ behind).head?, u.kind ≠ .closeParen := by
      -- Something stands in front of the parenthesis that was expected, and it is not another one.
      cases ts with
      | nil => exact absurd hlen (Nat.not_lt_zero _)
      | cons t ts =>
        obtain ⟨u, us, rfl, hu, -⟩ := hus.cons
        rintro _ ⟨⟩
        exact hu ▸ hts t rfl
    rwa [arguments_eq q hus']

omit hb in
theorem carries_quantifierBody (quantifier : Quantifier) (source : Expr) :
    Carries behind (quantifierBody p quantifier source) (quantifierBody q quantifier source) := by
  intro ts us e rest hus h
  unfold quantifierBody at h
  split at h
  · cases h
  · cases h
    obtain ⟨⟨_, _, _⟩, back, rfl, ⟨⟩, hk⟩ := hus.cons
    exact ⟨back, rfl, hk, Nat.le_succ _⟩
  · next v text position ts' =>
    obtain ⟨⟨_, _, _⟩, us₁, rfl, ⟨⟩, hus₁⟩ := hus.cons
    obtain ⟨ts₁, hx, h⟩ := bind_ok h
    obtain ⟨⟨body, ts₂⟩, hbody, h⟩ := bind_ok h
    obtain ⟨ts₃, hy, h⟩ := bind_ok h
    cases h
    obtain ⟨back, hx', hk, hn⟩ := expect_behind behind hus₁ hx
    obtain ⟨back', hbody', hk', hn'⟩ := hp hk hbody
    obtain ⟨back'', hy', hk'', hn''⟩ := expect_behind behind hk' hy
    refine ⟨back'', ?_, hk'', by rw [List.length_cons]; omega⟩
    exact (ok_bind hx' _).trans ((ok_bind hbody' _).trans (ok_bind hy' _))
  · cases h

theorem arrives_path : ∀ {fuel fuel' : Nat} {owner e : Expr} {ts us rest : List Token}, ts.length ≤ fuel →
    fuel ≤ fuel' → Alike us ts → path p fuel owner ts = .ok (e, rest) →
    Arrives behind ts (path q fuel' owner (us ++ behind)) e rest
  | fuel, fuel', owner, e, ts, us, rest, hl, hf, hus, h => by
    cases fuel with
    | zero =>
      obtain rfl := List.length_eq_zero_iff.mp (Nat.le_zero.mp hl)
      cases h
      exact ⟨us, path_end (head_behind hb hus nofun nofun), hus, Nat.le_refl _⟩
    | succ fuel =>
      obtain ⟨fuel', rfl⟩ : ∃ f, fuel' = f + 1 := ⟨fuel' - 1, by omega⟩
      have hf := Nat.le_of_succ_le_succ hf
      cases segment ts with
      | none hslash =>
        rw [path_end hslash] at h
        cases h
        exact ⟨us, path_end (head_behind hb hus nofun hslash), hus, Nat.le_refl _⟩
      | missing hs =>
        rw [path_missing hs] at h
        cases h
      | unnamed hs ht =>
        rw [path_unnamed hs ht] at h
        cases h
      | member hs ht hopens =>
        rw [path_member hs ht hopens] at h
        obtain ⟨s', us, rfl, hs', hus⟩ := hus.cons
        obtain ⟨t', us, rfl, ht', hus⟩ := hus.cons
        simp only [List.length_cons] at hl
        obtain ⟨back, hpath, hk, hn⟩ := arrives_path (by omega) hf hus h
        refine ⟨back, ?_, hk, by simp only [List.length_cons]; omega⟩
        rw [← hpath]
        exact path_member (hs'.trans hs) (ht'.trans ht) fun quantifier hq =>
          not_opens_behind hb hus (hopens quantifier hq)
      | @quantifier s t o rest quantifier hs hq ho =>
        rw [path_quantifierBody hs hq ho] at h
        obtain ⟨⟨owner', ts₃⟩, hbody, h⟩ := bind_ok h
        obtain ⟨s', us, rfl, hs', hus⟩ := hus.cons
        obtain ⟨t', us, rfl, ht', hus⟩ := hus.cons
        obtain ⟨o', us, rfl, ho', hus⟩ := hus.cons
        obtain ⟨back, hbody', hk, hn⟩ := carries_quantifierBody hp quantifier owner hus hbody
        simp only [List.length_cons] at hl
        obtain ⟨back', hpath, hk', hn'⟩ := arrives_path (by omega) hf hk h
        refine ⟨back', ?_, hk', by simp only [List.length_cons]; omega⟩
        rw [← hpath]
        have hq' : t'.isKeyword quantifier.symbol = true := by rwa [Token.isKeyword, ht', ← Token.isKeyword]
        exact path_quantifier (hs'.trans hs) hq' (ho'.trans ho) hbody'

theorem carries_named (name : String) : Carries behind (named p name) (named q name) := by
  intro ts us e rest hus h
  cases hw : wordLiteral? name with
  | some value =>
    unfold named at h ⊢
    rw [hw] at h ⊢
    cases h
    exact ⟨us, rfl, hus, Nat.le_refl _⟩
  | none =>
    by_cases hopens : Opens ts
    · obtain ⟨⟨_, _, _⟩, ts₁, rfl, ⟨⟩⟩ := hopens
      obtain ⟨⟨_, _, _⟩, us, rfl, ⟨⟩, hus₁⟩ := hus.cons
      unfold named at h ⊢
      rw [hw] at h ⊢
      obtain ⟨⟨args, ts₂⟩, ha, h⟩ := bind_ok h
      cases h
      obtain ⟨back, ha', hk, hn⟩ := carries_arguments hp hb hus₁ ha
      exact ⟨back, ok_bind ha' _, hk, Nat.le_succ_of_le hn⟩
    · rw [named_path hw hopens] at h
      have hl : ts.length ≤ (us ++ behind).length := by
        rw [List.length_append, hus.length]
        omega
      rw [named_path hw (not_opens_behind hb hus hopens)]
      exact arrives_path hp hb (Nat.le_refl _) hl hus h

omit hp hb in
theorem carries_negation {o o' : Parse Expr} (ho : Carries behind o o') (op : UnaryOp) :
    Carries behind (negation o op) (negation o' op) := by
  intro ts us e rest hus h
  obtain ⟨⟨x, ts'⟩, hx, h⟩ := bind_ok h
  cases h
  obtain ⟨back, hx', hk, hn⟩ := ho hus hx
  exact ⟨back, ok_bind hx' _, hk, hn⟩

theorem carries_operandOf {o o' : Parse Expr} (ho : Carries behind o o') :
    Carries behind (operandOf p o) (operandOf q o') := by
  intro ts us e rest hus h
  cases ts with
  | nil => cases h
  | cons t ts =>
    obtain ⟨u, us, rfl, hu, hus⟩ := hus.cons
    have hnext : ∀ {r r' : Parse Expr}, Carries behind r r' → r ts = .ok (e, rest) →
        Arrives behind (t :: ts) (r' (us ++ behind)) e rest := by
      intro r r' hr h
      obtain ⟨back, hr', hk, hn⟩ := hr hus h
      exact ⟨back, hr', hk, Nat.le_succ_of_le hn⟩
    rw [List.cons_append, operandOf, hu]
    rw [operandOf] at h
    split at h
    · next name ht =>
      by_cases hnot : sameName name "not" = true
      · rw [if_pos hnot] at h ⊢
        exact hnext (carries_negation ho .not) h
      · rw [if_neg hnot] at h ⊢
        exact hnext (carries_named hp hb name) h
    · next ht =>
      exact hnext (carries_negation ho .negate) h
    · next ht =>
      exact hnext (carries_parenthesized hp hb) h
    · next value ht =>
      cases h
      exact ⟨us, rfl, hus, Nat.le_succ _⟩
    · cases h

end

theorem carries_exhausted (limit : Nat) (q : Parse Expr) : Carries behind (exhausted limit) q := nofun

theorem carries_operand (hb : Closes behind) (limit limit' : Nat) :
    ∀ room, Carries behind (operand limit room) (operand limit' room)
  | 0 => carries_operandOf (carries_exhausted limit _) hb (carries_exhausted limit _)
  | room + 1 =>
    carries_operandOf (carries_stratified (carries_operand hb limit limit' room) hb) hb
      (carries_operand hb limit limit' room)

theorem carries_expression (hb : Closes behind) (limit limit' : Nat) :
    ∀ room, Carries behind (expression limit room) (expression limit' room)
  | 0 => carries_exhausted limit _
  | room + 1 => carries_stratified (carries_operand hb limit limit' room) hb

/-! ## Parsing -/

/-- Parsing looks at the kinds of tokens only. -/
theorem ofTokens_alike {limit : Nat} {us ts : List Token} (hus : Alike us ts) {e : Expr}
    (h : Expr.ofTokens limit ts = .ok e) : Expr.ofTokens limit us = .ok e := by
  have hb : Closes [] := nofun
  obtain ⟨back, hp, hk, -⟩ := carries_expression hb limit limit limit hus (ofTokens_iff.mp h)
  cases List.map_eq_nil_iff.mp hk
  rw [List.append_nil] at hp
  exact ofTokens_iff.mpr hp

/-- A whole expression in parentheses is an operand, if there is room for one more. -/
theorem operand_enclosed {limit : Nat} {ts : List Token} {e : Expr} (h : Expr.ofTokens limit ts = .ok e)
    {o c : Token} (ho : o.kind = .openParen) (hc : c.kind = .closeParen) (rest : List Token) :
    operand (limit + 1) limit (o :: (ts ++ c :: rest)) = .ok (e, rest) := by
  have hb : Closes (c :: rest) := by
    rintro _ ⟨⟩
    exact hc
  obtain ⟨back, hp, hk, -⟩ := carries_expression hb limit (limit + 1) limit rfl (ofTokens_iff.mp h)
  cases List.map_eq_nil_iff.mp hk
  cases limit with
  | zero => cases hp
  | succ room =>
    rw [operand, operandOf, ho]
    have hcomma : ∀ t ∈ (c :: rest).head?, t.kind ≠ .comma := by
      rintro _ ⟨⟩
      intro hk
      cases hc.symm.trans hk
    exact (ok_bind (commaSeparated_one hp hcomma) _).trans (ok_bind (expect_kind hc _ rest) _)

end FilterGuard.Parsing
