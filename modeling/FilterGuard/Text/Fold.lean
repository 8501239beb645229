/-!
# Names up to case

Names compare up to the case of ASCII letters. `fold` picks one spelling for
each class of equal names; letters beyond ASCII keep their case.
-/

namespace FilterGuard.Text

/-- A name with its ASCII capitals in lower case. -/
def fold (name : String) : String :=
  String.ofList (name.toList.map Char.toLower)

/-- Equality of names up to the case of ASCII letters. -/
def sameName (a b : String) : Bool :=
  fold a == fold b

theorem sameName_iff {a b : String} : sameName a b = true ↔ fold a = fold b := by
  simp [sameName]

@[simp] theorem sameName_self (a : String) : sameName a a = true := by
  simp [sameName]

theorem toLower_toLower (c : Char) : c.toLower.toLower = c.toLower := by
  unfold Char.toLower
  split
  · next h =>
    refine dif_neg fun h' => ?_
    have hc : 65 ≤ c.val.toNat ∧ c.val.toNat ≤ 90 := h
    have hl : (c.val + 32).toNat ≤ 90 := h'.2
    have h32 : (32 : UInt32).toNat = 32 := rfl
    rw [UInt32.toNat_add] at hl
    omega
  · rfl

@[simp] theorem fold_fold (name : String) : fold (fold name) = fold name := by
  unfold fold
  rw [String.toList_ofList, List.map_map]
  exact congrArg String.ofList (List.map_congr_left fun c _ => toLower_toLower c)

end FilterGuard.Text
