import FilterGuard.Binding.Coercion
import FilterGuard.Proofs.Steps

/-!
# What operands become

An operator takes an operand as it is, converted, or, if it is a string beside
an enumeration, as a member of that.
-/

namespace FilterGuard.Binding

/-- What an operand can become under an operator. -/
inductive Coerced (b : Bound) : Bound → Prop
  | same : Coerced b b
  | convert (target : Primitive) : Coerced b (.convert b target)
  | member {text : String} (h : b.unconverted = .const (.string text)) (type member : String) :
      Coerced b (.const (.enum type member))

theorem enumConstant_ok {ctx : Context} {e : Element} {member : String} {v : Literal}
    (h : enumConstant ctx e member = .ok v) : ∃ declared, v = .enum e.fullName declared := by
  unfold enumConstant at h
  split at h <;> cases h
  exact ⟨_, rfl⟩

theorem coerced_asEnum {ctx : Context} {name operator : String} {x : Typed} {b : Bound}
    (h : asEnum ctx name operator x = .ok b) : Coerced x.node b := by
  unfold asEnum at h
  split at h
  · next hu =>
    split at h
    · obtain ⟨v, hv, rfl⟩ := map_ok h
      obtain ⟨declared, rfl⟩ := enumConstant_ok hv
      exact .member hu _ _
    · cases h
  · split at h <;> cases h
    exact .same

theorem coerced_promote {operator : String} {left right : Typed} {a b : Primitive} {l r : Bound}
    (h : promote operator left right a b = .ok (l, r)) : Coerced left.node l ∧ Coerced right.node r := by
  unfold promote at h
  split at h
  · cases h
    exact ⟨.same, .same⟩
  · split at h
    · split at h <;> cases h
      · exact ⟨.convert b, .same⟩
      · exact ⟨.same, .convert a⟩
    · cases h

theorem coerced_unify {ctx : Context} {operator : String} {left right : Typed} {l r : Bound}
    (h : unify ctx operator left right = .ok (l, r)) : Coerced left.node l ∧ Coerced right.node r := by
  unfold unify at h
  split at h
  · cases h
    exact ⟨.same, .same⟩
  · cases h
    exact ⟨.same, .same⟩
  · obtain ⟨r', hr, heq⟩ := map_ok h
    cases heq
    exact ⟨.same, coerced_asEnum hr⟩
  · obtain ⟨l', hl, heq⟩ := map_ok h
    cases heq
    exact ⟨coerced_asEnum hl, .same⟩
  · split at h <;> cases h
    exact ⟨.same, .same⟩
  · exact coerced_promote h
  · cases h

/-- A binary operator over what two operands became. -/
def Joined (op : BinaryOp) (left right : Bound) (x : Typed) : Prop :=
  ∃ l r, x.node = .binary op l r ∧ Coerced left l ∧ Coerced right r

theorem joined_arithmetic {op : BinaryOp} {left right x : Typed} (h : arithmetic op left right = .ok x) :
    Joined op left.node right.node x := by
  have hs : ∀ t : Option EdmType, Joined op left.node right.node ⟨.binary op left.node right.node, t⟩ :=
    fun t => ⟨_, _, rfl, .same, .same⟩
  unfold arithmetic at h
  dsimp only at h
  split at h
  · cases h
    exact hs _
  · split at h <;> cases h
    exact hs _
  · split at h <;> cases h
    exact hs _
  · split at h
    · next m n _ _ =>
      by_cases hm : m < n
      · rw [if_pos hm] at h
        cases h
        exact ⟨_, _, rfl, .convert _, .same⟩
      · rw [if_neg hm] at h
        by_cases hn : n < m
        · rw [if_pos hn] at h
          cases h
          exact ⟨_, _, rfl, .same, .convert _⟩
        · rw [if_neg hn] at h
          cases h
          exact hs _
    · split at h <;> cases h
      exact hs _
  · cases h

theorem joined_flagTest {ctx : Context} {left right x : Typed} (h : flagTest ctx left right = .ok x) :
    Joined .has left.node right.node x := by
  unfold flagTest at h
  split at h
  · obtain ⟨r, hr, rfl⟩ := map_ok h
    exact ⟨_, r, rfl, .same, coerced_asEnum hr⟩
  · cases h

theorem joined_combine {ctx : Context} {op : BinaryOp} {left right x : Typed}
    (h : combine ctx op left right = .ok x) : Joined op left.node right.node x := by
  unfold combine at h
  split at h
  · obtain ⟨_, -, h⟩ := bind_ok h
    obtain ⟨_, -, h⟩ := bind_ok h
    cases h
    exact ⟨_, _, rfl, .same, .same⟩
  · split at h
    · next hop =>
      subst hop
      exact joined_flagTest h
    · split at h
      · exact joined_arithmetic h
      · obtain ⟨⟨l, r⟩, hu, h⟩ := bind_ok h
        cases h
        exact ⟨l, r, rfl, coerced_unify hu⟩

theorem node_combineUnary {op : UnaryOp} {x y : Typed} (h : combineUnary op x = .ok y) :
    y.node = .unary op x.node := by
  cases op with
  | not =>
    obtain ⟨_, -, h⟩ := bind_ok h
    cases h
    rfl
  | negate =>
    simp only [combineUnary] at h
    split at h <;> cases h
    rfl

theorem coerced_asItem {ctx : Context} {subject : Option EdmType} {x y : Typed}
    (h : asItem ctx subject x = .ok y) : Coerced x.node y.node := by
  unfold asItem at h
  split at h
  · cases h
    exact .same
  · cases h
    exact .same
  · obtain ⟨b, hb, rfl⟩ := map_ok h
    exact coerced_asEnum hb
  · split at h
    · cases h
      exact .same
    · split at h <;> cases h
      exact .convert _
  · cases h

end FilterGuard.Binding
