import FilterGuard.Proofs.Limits
import FilterGuard.Proofs.Derivation

/-!
# Where parsing fails

Parsing fails at the first token with which the tokens so far cannot be continued to
an expression any more, or at the end of tokens that can be.
-/

namespace FilterGuard.Grammar
open Parsing

/-- How tokens fail to parse under a limit. -/
inductive Failure (limit : Nat) (ts : List Token) : ExprError → Prop
  | empty (hts : ts = []) : Failure limit ts .empty
  | refused {front t rest expected} (hts : ts = front ++ t :: rest)
      (h : ∀ rest, Expr.ofTokens limit (front ++ t :: rest) = .error (unexpected expected t))
      (hv : Viable Derives front) : Failure limit ts (.unexpectedToken t.text expected t.position)
  | ended {expected} (hv : Viable Derives ts) : Failure limit ts (.unexpectedEnd expected)
  | tooDeep {limit'} : Failure limit ts (.tooDeep limit')

theorem ofTokens_of_ne_nil {limit : Nat} {ts : List Token} (hne : ts ≠ []) : Expr.ofTokens limit ts =
    expression limit limit ts >>= fun x =>
      match x.2 with
      | [] => .ok x.1
      | t :: _ => .error (unexpected .endOfExpression t) := by
  cases ts with
  | nil => exact absurd rfl hne
  | cons => rfl

theorem failure_of_error {limit : Nat} {ts : List Token} {e : ExprError} (h : Expr.ofTokens limit ts = .error e) :
    Failure limit ts e := by
  by_cases hne : ts = []
  · subst hne
    cases h
    exact .empty rfl
  have hcons : ∀ {front rest : List Token} {t : Token}, front ++ t :: rest ≠ [] := by simp
  rw [ofTokens_of_ne_nil hne] at h
  cases outcome_expression limit limit ts with
  | all hp =>
    rw [hp] at h
    cases h
  | @stops front t rest _ hts hp ha =>
    have hfail : ∀ rest, Expr.ofTokens limit (front ++ t :: rest) = .error (unexpected .endOfExpression t) :=
      fun rest => (ofTokens_of_ne_nil hcons).trans (ok_bind (hp rest) _)
    rw [hts, ok_bind (hp rest)] at h
    cases h
    exact .refused hts hfail (viable_of ha)
  | @refuses front t rest expected hts hp hv =>
    have hfail : ∀ rest, Expr.ofTokens limit (front ++ t :: rest) = .error (unexpected expected t) := by
      intro rest
      rw [ofTokens_of_ne_nil hcons, hp]
      rfl
    rw [hts, hp] at h
    cases h
    exact .refused hts hfail hv
  | ends hp hv =>
    rw [hp] at h
    cases h
    exact .ended hv
  | tooDeep hp =>
    rw [hp] at h
    cases h
    exact .tooDeep

/-- Whether tokens can be continued so that they parse under some limit. -/
def Completable (ts : List Token) : Prop :=
  ∃ more limit e, Expr.ofTokens limit (ts ++ more) = .ok e

theorem completable_of_viable {ts : List Token} (h : Viable Derives ts) : Completable ts := by
  obtain ⟨more, e, he⟩ := h
  exact ⟨more, _, e, ofTokens_of_derives (Nat.le_refl _) he⟩

/-- An error that is not about depth, whatever follows a token, stands under every limit. -/
theorem not_completable_of_refused {limit : Nat} {front : List Token} {t : Token} {e : ExprError} (he : ¬ e.IsDepth)
    (h : ∀ rest, Expr.ofTokens limit (front ++ t :: rest) = .error e) : ¬ Completable (front ++ [t]) := by
  rintro ⟨more, limit', x, hx⟩
  rw [List.append_assoc, List.singleton_append] at hx
  -- Both limits give what the higher one of them gives.
  have hlow := settled_ofTokens (Nat.le_max_left limit limit') (front ++ t :: more)
  have hhigh := settled_ofTokens (Nat.le_max_right limit limit') (front ++ t :: more)
  rw [h more] at hlow
  rw [hx] at hhigh
  obtain ⟨_, hd, ⟨⟩⟩ | hlow := hlow
  · exact he hd
  obtain ⟨_, _, ⟨⟩⟩ | hhigh := hhigh
  cases hlow.symm.trans hhigh

/-- A token is reported if it is the first one with which the tokens cannot be continued to an
expression, and the end is if they can. -/
theorem ofTokens_fails_first (limit : Nat) (ts : List Token) :
    (∀ found expected position, Expr.ofTokens limit ts = .error (.unexpectedToken found expected position) →
      ∃ front t rest, ts = front ++ t :: rest ∧ t.text = found ∧ t.position = position ∧
        Completable front ∧ ¬ Completable (front ++ [t])) ∧
    ∀ expected, Expr.ofTokens limit ts = .error (.unexpectedEnd expected) → Completable ts := by
  constructor
  · intro found expected position h
    cases failure_of_error h with
    | refused hts hfail hv =>
      exact ⟨_, _, _, hts, rfl, rfl, completable_of_viable hv, not_completable_of_refused id hfail⟩
  · intro expected h
    cases failure_of_error h with
    | ended hv => exact completable_of_viable hv

/-- `a/any(x:(1,`. -/
def unfinished : List Token :=
  [⟨.identifier "a", "a", 0⟩, ⟨.slash, "/", 1⟩, ⟨.identifier "any", "any", 2⟩, ⟨.openParen, "(", 5⟩,
   ⟨.identifier "x", "x", 6⟩, ⟨.colon, ":", 7⟩, ⟨.openParen, "(", 8⟩, ⟨.literal (.int32 1), "1", 9⟩,
   ⟨.comma, ",", 10⟩]

theorem ofTokens_fails_first_unfinished :
    Expr.ofTokens 8 (unfinished ++ [⟨.closeParen, ")", 11⟩]) = .error (.unexpectedToken ")" .expression 11) ∧
    (∃ front t rest, unfinished ++ [⟨.closeParen, ")", 11⟩] = front ++ t :: rest ∧ t.text = ")" ∧ t.position = 11 ∧
      Completable front ∧ ¬ Completable (front ++ [t])) ∧
    Expr.ofTokens 8 unfinished = .error (.unexpectedEnd .expression) ∧ Completable unfinished :=
  ⟨rfl, (ofTokens_fails_first 8 _).1 _ .expression _ rfl, rfl, (ofTokens_fails_first 8 _).2 .expression rfl⟩

end FilterGuard.Grammar
