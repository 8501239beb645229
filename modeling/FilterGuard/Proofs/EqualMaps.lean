import FilterGuard.Proofs.Names
import Mathlib.Data.List.Perm.Subperm

/-!
# Equal maps

Maps are compared by their sizes and by what the second one has under the names of the
first. As no name counts twice, that settles what both have under every name.
-/

namespace FilterGuard.NameMap
open Text

variable {V : Type u} {m n : NameMap V}

theorem names_iff_fold {name : String} : m.Names name ↔ fold name ∈ m.keys.map fold := by
  simp [Names, List.mem_map, sameName_iff]

theorem fold_keys_subset (h : ∀ name, m.Names name → n.Names name) : m.keys.map fold ⊆ n.keys.map fold := by
  intro x hx
  obtain ⟨key, -, rfl⟩ := List.mem_map.mp hx
  exact names_iff_fold.mp (h key (names_iff_fold.mpr hx))

/-- A map with no more names than another one of which it has all has no others. -/
theorem names_of_size_le (h : ∀ name, m.Names name → n.Names name) (hsize : n.size ≤ m.size) {name : String}
    (hn : n.Names name) : m.Names name := by
  have hlen : (n.keys.map fold).length ≤ (m.keys.map fold).length := by simpa [keys, size] using hsize
  -- As many different names as there are at all are all of them.
  have hperm := (m.nodup_fold_keys.subperm (fold_keys_subset h)).perm_of_length_le hlen
  exact names_iff_fold.mpr (hperm.mem_iff.mpr (names_iff_fold.mp hn))

theorem size_le_of_names (h : ∀ name, m.Names name → n.Names name) : m.size ≤ n.size := by
  simpa [keys, size] using m.nodup_fold_keys.length_le_of_subset (fold_keys_subset h)

/-- Related values are found in equal maps, or none in both. -/
theorem rel_get?_of_beq [BEq V] (h : (m == n) = true) (name : String) :
    Option.Rel (fun v w => (w == v) = true) (m.get? name) (n.get? name) := by
  obtain ⟨hsize, hall⟩ := Bool.and_eq_true_iff.mp h
  have hfound : ∀ name v, m.get? name = some v → ∃ w, n.get? name = some w ∧ (w == v) = true := by
    intro name v hv
    obtain ⟨key, he, hs⟩ := get?_eq_some_iff.mp hv
    have hb := List.all_eq_true.mp hall _ he
    rw [n.get?_congr hs] at hb
    cases hn : n.get? name with
    | none =>
      rw [hn] at hb
      cases hb
    | some w =>
      rw [hn] at hb
      exact ⟨w, rfl, hb⟩
  have hnames : ∀ name, m.Names name → n.Names name := by
    intro name hname
    obtain ⟨v, hv⟩ := Option.isSome_iff_exists.mp (contains_iff.mpr hname)
    obtain ⟨w, hw, -⟩ := hfound name v hv
    exact contains_iff.mp (Option.isSome_iff_exists.mpr ⟨w, hw⟩)
  cases hm : m.get? name with
  | some v =>
    obtain ⟨w, hw, heq⟩ := hfound name v hm
    rw [hw]
    exact .some heq
  | none =>
    have hn : n.get? name = none := get?_eq_none_iff.mpr fun hn =>
      get?_eq_none_iff.mp hm (names_of_size_le hnames (Nat.le_of_eq (beq_iff_eq.mp hsize).symm) hn)
    rw [hn]
    exact .none

theorem contains_eq_of_rel {R : V → V → Prop} {name : String} (h : Option.Rel R (m.get? name) (n.get? name)) :
    m.contains name = n.contains name := by
  rw [contains, contains]
  generalize m.get? name = found, n.get? name = found' at h
  cases h <;> rfl

theorem names_iff_of_rel {R : V → V → Prop} {name : String} (h : Option.Rel R (m.get? name) (n.get? name)) :
    m.Names name ↔ n.Names name := by
  rw [← contains_iff, ← contains_iff, contains_eq_of_rel h]

theorem beq_of_get? [BEq V] (hs : m.size = n.size)
    (h : ∀ e ∈ m.entries, ∃ v, n.get? e.1 = some v ∧ (v == e.2) = true) : (m == n) = true := by
  refine Bool.and_eq_true_iff.mpr ⟨beq_iff_eq.mpr hs, List.all_eq_true.mpr fun e he => ?_⟩
  obtain ⟨v, hv, heq⟩ := h e he
  rw [hv]
  exact heq

theorem beq_of_rel_get? [BEq V]
    (h : ∀ name, Option.Rel (fun v w => (w == v) = true) (m.get? name) (n.get? name)) : (m == n) = true := by
  have hle := size_le_of_names fun name => (names_iff_of_rel (h name)).mp
  have hge := size_le_of_names fun name => (names_iff_of_rel (h name)).mpr
  refine beq_of_get? (Nat.le_antisymm hle hge) fun e he => ?_
  have hr := h e.1
  rw [get?_eq_some_iff.mpr ⟨e.1, he, sameName_self e.1⟩] at hr
  generalize n.get? e.1 = found at hr ⊢
  cases hr with
  | some heq => exact ⟨_, rfl, heq⟩

theorem rel_iff_beq [BEq V] {a b : Option V} : Option.Rel (fun v w => (w == v) = true) a b ↔ (b == a) = true := by
  cases a <;> cases b <;> simp

/-- Maps are equal if what is found in the second is what is found in the first, under every name. -/
theorem beq_of_get?_beq [BEq V] (h : ∀ name, (n.get? name == m.get? name) = true) : (m == n) = true :=
  beq_of_rel_get? fun name => rel_iff_beq.mpr (h name)

theorem get?_of_beq [BEq V] [LawfulBEq V] (h : (m == n) = true) (name : String) : m.get? name = n.get? name := by
  have hr := rel_get?_of_beq h name
  generalize m.get? name = found, n.get? name = found' at hr
  cases hr with
  | none => rfl
  | some hr => rw [eq_of_beq hr]

section
variable [BEq V] [PartialEquivBEq V]

theorem option_symm {a b : Option V} (h : (a == b) = true) : (b == a) = true := by
  cases a <;> cases b <;> simp_all [BEq.comm]

theorem option_trans {a b c : Option V} (h : (a == b) = true) (h' : (b == c) = true) : (a == c) = true := by
  cases a <;> cases b <;> cases c <;> simp_all
  exact BEq.trans h h'

/-- Maps are equal if what is found in them is, under every name. -/
theorem beq_iff_get? : (m == n) = true ↔ ∀ name, (m.get? name == n.get? name) = true :=
  ⟨fun h name => option_symm (rel_iff_beq.mp (rel_get?_of_beq h name)),
    fun h => beq_of_get?_beq fun name => option_symm (h name)⟩

theorem beq_symm (h : (m == n) = true) : (n == m) = true :=
  beq_iff_get?.mpr fun name => option_symm (beq_iff_get?.mp h name)

theorem beq_trans {l : NameMap V} (h : (l == m) = true) (h' : (m == n) = true) : (l == n) = true :=
  beq_iff_get?.mpr fun name => option_trans (beq_iff_get?.mp h name) (beq_iff_get?.mp h' name)

end

theorem entries_eq (m : NameMap V) : m.entries = m.keys.filterMap fun key => (m.get? key).map (Prod.mk key) := by
  rw [keys, List.filterMap_map]
  have hfound : ∀ e ∈ m.entries, some e = (m.get? e.1).map (Prod.mk e.1) := fun e he => by
    rw [get?_eq_some_iff.mpr ⟨e.1, he, sameName_self e.1⟩, Option.map_some]
  calc m.entries = m.entries.filterMap some := List.filterMap_some.symm
    _ = _ := List.filterMap_congr hfound

/-- Maps with the same keys in the same order are the same if the same is found in them. -/
theorem eq_of_get? {m n : NameMap V} (hk : m.keys = n.keys) (h : ∀ name, m.get? name = n.get? name) : m = n := by
  have he : m.entries = n.entries := by
    rw [m.entries_eq, n.entries_eq, hk]
    simp only [h]
  obtain ⟨_, _⟩ := m
  obtain ⟨_, _⟩ := n
  cases he
  rfl

end FilterGuard.NameMap
