import FilterGuard.Proofs.EqualMaps

/-!
# Maps after changes

A map that starts empty has, whatever is done to it, the names that something was
stored under, each where it first came and as it was spelled there, and under each
what was stored last.
-/

namespace FilterGuard
open Text

/-- What can be done to a map. What is done to the value that an operation has found
or put there is a change of its own. -/
inductive Change (V : Type u) where
  | insert (name : String) (value : V)
  | insertIfNew (name : String) (value : V)
  | modify (name : String) (f : V → V)

namespace Change

variable {V : Type u}

def apply (m : NameMap V) : Change V → NameMap V
  | insert name value => m.insert name value
  | insertIfNew name value => m.insertIfNew name value
  | modify name f => m.modify name f

/-- The name that has a value after the change, even if it had none before. -/
def name? : Change V → Option String
  | insert name _ => some name
  | insertIfNew name _ => some name
  | modify _ _ => none

/-- The values that have been stored under a name, after one more change. -/
def store (name : String) (values : List V) : Change V → List V
  | insert key value => if sameName key name then values ++ [value] else values
  | insertIfNew key value => if sameName key name && values.isEmpty then values ++ [value] else values
  | modify key f => if sameName key name then values ++ (values.getLast?.map f).toList else values

end Change

namespace NameMap

variable {V : Type u}

/-- The map that is empty before a number of changes. -/
def built (cs : List (Change V)) : NameMap V :=
  cs.foldl Change.apply empty

/-- All values that changes store under a name, in any spelling. -/
def stored (name : String) (cs : List (Change V)) : List V :=
  cs.foldl (Change.store name) []

/-! ## One change -/

theorem modify_eq (m : NameMap V) (name : String) (f : V → V) :
    m.modify name f = m ∧ m.get? name = none ∨
      ∃ v, m.get? name = some v ∧ m.modify name f = m.insert name (f v) := by
  unfold modify
  cases hm : m.get? name with
  | none => exact .inl ⟨rfl, rfl⟩
  | some v => exact .inr ⟨v, rfl, rfl⟩

theorem get?_apply {m : NameMap V} {name : String} {values : List V} (h : m.get? name = values.getLast?)
    (c : Change V) : (c.apply m).get? name = (c.store name values).getLast? := by
  cases c with
  | insert key value =>
    rw [Change.apply, Change.store, get?_insert]
    split
    · rw [List.getLast?_concat]
    · exact h
  | insertIfNew key value =>
    rw [Change.apply, Change.store, insertIfNew, get?_upsert]
    cases hs : sameName key name with
    | false => simpa using h
    | true =>
      rw [m.get?_congr hs, h]
      obtain rfl | ⟨init, v, rfl⟩ := List.eq_nil_or_concat values <;> simp
  | modify key f =>
    rw [Change.apply, Change.store]
    cases hs : sameName key name with
    | false =>
      obtain ⟨hm, -⟩ | ⟨v, -, hm⟩ := m.modify_eq key f
      · rw [hm]
        exact h
      · rw [hm, get?_insert, hs]
        exact h
    | true =>
      obtain ⟨hm, hn⟩ | ⟨v, hv, hm⟩ := m.modify_eq key f
      · rw [m.get?_congr hs, h] at hn
        rw [hm, h, hn]
        simp [hn]
      · rw [m.get?_congr hs, h] at hv
        rw [hm, get?_insert, hs, hv]
        simp

theorem keys_apply (m : NameMap V) (c : Change V) (names : List String) :
    (c.apply m).keys ++ (firstSpellings names).filter (fun other => !(c.apply m).contains other) =
      m.keys ++ (firstSpellings (c.name?.toList ++ names)).filter fun other => !m.contains other := by
  cases c with
  | insert name value => exact m.keys_upsert_append name _ names
  | insertIfNew name value => exact m.keys_upsert_append name _ names
  | modify name f =>
    obtain ⟨hm, -⟩ | ⟨v, hv, hm⟩ := m.modify_eq name f
    · rw [Change.apply, hm]
      rfl
    · have hname : m.contains name = true := by rw [contains, hv, Option.isSome_some]
      have hc : ∀ other, (m.insert name (f v)).contains other = m.contains other := by
        intro other
        rw [insert, contains_upsert]
        cases hs : sameName name other with
        | false => rfl
        | true => rw [contains, ← m.get?_congr hs, ← contains, hname]; rfl
      have hkeys : (m.insert name (f v)).keys = m.keys := by rw [insert, keys_upsert, hname]; simp
      rw [Change.apply, hm, hkeys]
      simp only [hc]
      rfl

/-! ## All changes -/

theorem get?_foldl_apply (name : String) : ∀ (cs : List (Change V)) {m : NameMap V} {values : List V},
    m.get? name = values.getLast? →
    (cs.foldl Change.apply m).get? name = (cs.foldl (Change.store name) values).getLast?
  | [], _, _, h => h
  | c :: cs, _, _, h => get?_foldl_apply name cs (get?_apply h c)

theorem keys_foldl_apply : ∀ (cs : List (Change V)) (m : NameMap V), (cs.foldl Change.apply m).keys =
    m.keys ++ (firstSpellings (cs.filterMap Change.name?)).filter fun name => !m.contains name
  | [], m => by simp [firstSpellings]
  | c :: cs, m => by
    rw [List.foldl_cons, keys_foldl_apply cs, keys_apply, List.filterMap_cons]
    cases c.name? <;> rfl

/-- A map with what changes have stored in it. -/
structure Keeps (m : NameMap V) (cs : List (Change V)) : Prop where
  /-- No two keys are one name. -/
  apart : m.keys.Pairwise fun key other => sameName key other = false
  keys : m.keys = firstSpellings (cs.filterMap Change.name?)
  entry : ∀ e ∈ m.entries, m.get? e.1 = some e.2
  last : ∀ name, m.get? name = (stored name cs).getLast?

theorem keeps_built (cs : List (Change V)) : (built cs).Keeps cs where
  apart := (List.pairwise_map.mp (built cs).nodup_fold_keys).imp fun h => by simpa [sameName] using h
  keys := by
    have hc : ∀ name, (empty : NameMap V).contains name = false := fun _ => rfl
    rw [built, keys_foldl_apply, List.filter_eq_self.mpr fun name _ => by rw [hc]; rfl]
    rfl
  entry e he := get?_eq_some_iff.mpr ⟨e.1, he, sameName_self e.1⟩
  last name := get?_foldl_apply name cs rfl

/-- Maps that are built by changes have the names in the order in which they came, in their first
spellings, with their last values. They are equal if what is found in them is, so that equality
goes both ways and from map to map. -/
theorem built_keeps_and_compares [BEq V] [PartialEquivBEq V] (cs cs' cs'' : List (Change V)) :
    (built cs).Keeps cs ∧
    ((built cs == built cs') = true ↔ ∀ name, ((built cs).get? name == (built cs').get? name) = true) ∧
    ((built cs == built cs') = true → (built cs' == built cs) = true) ∧
    ((built cs == built cs') = true → (built cs' == built cs'') = true → (built cs == built cs'') = true) :=
  ⟨keeps_built cs, beq_iff_get?, beq_symm, beq_trans⟩

/-- Two spellings, a value that is there and one that is not, and one that is made from another. -/
def overwritten : List (Change Nat) :=
  [.insert "startsWith" 1, .modify "eq" (· + 1), .insertIfNew "STARTSWITH" 5, .insertIfNew "Eq" 3,
   .insert "startswith" 2, .modify "EQ" (· + 1)]

def straight : List (Change Nat) :=
  [.insert "EQ" 4, .insert "StartsWith" 2]

theorem built_keeps_and_compares_overwritten :
    (built overwritten).Keeps overwritten ∧ (built overwritten).keys = ["startsWith", "Eq"] ∧
    (built overwritten == built straight) = true ∧
    (∀ name, ((built overwritten).get? name == (built straight).get? name) = true) ∧
    (built straight == built overwritten) = true ∧ (built overwritten == built overwritten) = true := by
  have he : (built overwritten == built straight) = true := by decide +kernel
  obtain ⟨hk, hiff, hsymm, htrans⟩ := built_keeps_and_compares overwritten straight overwritten
  exact ⟨hk, by decide +kernel, he, hiff.mp he, hsymm he, htrans he (hsymm he)⟩

end NameMap

end FilterGuard
