import FilterGuard.NameMap

/-!
# What a map of names holds

No two keys are the same name, so what is found under a name is the value of the
only entry whose key is that name up to case. A map that is filled name by name
has the names for its keys, each where it first came and as it was spelled there.
-/

namespace FilterGuard
open Text

/-- The names of a list up to case, each in its first spelling. -/
def firstSpellings : List String → List String
  | [] => []
  | name :: names => name :: (firstSpellings names).filter fun other => !sameName name other

/-- The first name of a list that has come before, in any case. Some names have come already. -/
def firstRecurring (seen : List String) : List String → Option String
  | [] => none
  | name :: names => if seen.any fun old => sameName old name then some name else firstRecurring (seen ++ [name]) names

theorem firstRecurring_eq_none_iff : ∀ {names seen : List String}, (seen.map fold).Nodup →
    (firstRecurring seen names = none ↔ ((seen ++ names).map fold).Nodup)
  | [], seen, hn => by simpa [firstRecurring] using hn
  | name :: names, seen, hn => by
    rw [firstRecurring]
    by_cases hs : seen.any (fun old => sameName old name) = true
    · obtain ⟨old, hm, hs'⟩ := List.any_eq_true.mp hs
      rw [if_pos hs, List.map_append, List.nodup_append]
      exact ⟨nofun, fun h => absurd (sameName_iff.mp hs') (h.2.2 _ (List.mem_map_of_mem hm) _ (by simp))⟩
    · have hfresh : fold name ∉ seen.map fold := fun hm => by
        obtain ⟨old, ho, he⟩ := List.mem_map.mp hm
        exact hs (List.any_eq_true.mpr ⟨old, ho, sameName_iff.mpr he⟩)
      have hn' : ((seen ++ [name]).map fold).Nodup := by
        rw [List.map_append, List.nodup_append]
        exact ⟨hn, by simp, fun x hx y hy he => hfresh (by simp_all)⟩
      rw [if_neg hs, firstRecurring_eq_none_iff hn', List.append_assoc, List.singleton_append]

namespace NameMap

variable {V : Type u}

/-- Whether a name is a key, in any case. -/
def Names (m : NameMap V) (name : String) : Prop :=
  ∃ key ∈ m.keys, sameName key name = true

theorem nodup_fold_keys (m : NameMap V) : (m.keys.map fold).Nodup := by
  rw [keys, List.map_map]
  exact m.distinct

theorem mem_of_lookup {name : String} {v : V} : ∀ {es : List (String × V)}, lookup name es = some v →
    ∃ key, (key, v) ∈ es ∧ sameName key name = true
  | [], h => by simp [lookup] at h
  | (key, value) :: es, h => by
    by_cases hk : sameName key name = true
    · simp only [lookup, hk, if_true, Option.some.injEq] at h
      exact ⟨key, by simp [h], hk⟩
    · simp only [lookup, hk] at h
      obtain ⟨key', hm, hs⟩ := mem_of_lookup h
      exact ⟨key', List.mem_cons_of_mem _ hm, hs⟩

theorem lookup_of_mem {name key : String} {v : V} (hs : sameName key name = true) :
    ∀ {es : List (String × V)}, (es.map fun e => fold e.1).Nodup → (key, v) ∈ es → lookup name es = some v
  | [], _, h => by cases h
  | (key', value) :: es, hn, h => by
    rw [List.map_cons, List.nodup_cons] at hn
    rcases List.mem_cons.mp h with heq | hm
    · cases heq
      simp [lookup, hs]
    · have hne : sameName key' name = false := by
        have hk : fold key' ≠ fold key := fun he =>
          hn.1 (he ▸ List.mem_map.mpr ⟨(key, v), hm, rfl⟩)
        simpa [sameName, ← sameName_iff.mp hs] using hk
      simp only [lookup, hne, Bool.false_eq_true, if_false]
      exact lookup_of_mem hs hn.2 hm

theorem lookup_congr {name other : String} (hs : sameName name other = true) :
    ∀ es : List (String × V), lookup name es = lookup other es
  | [] => rfl
  | (key, value) :: es => by
    rw [lookup, lookup, lookup_congr hs es, sameName, sameName, sameName_iff.mp hs]

theorem get?_congr (m : NameMap V) {name other : String} (hs : sameName name other = true) :
    m.get? name = m.get? other :=
  lookup_congr hs m.entries

theorem get?_eq_some_iff {m : NameMap V} {name : String} {v : V} :
    m.get? name = some v ↔ ∃ key, (key, v) ∈ m.entries ∧ sameName key name = true :=
  ⟨mem_of_lookup, fun ⟨_, hm, hs⟩ => lookup_of_mem hs m.distinct hm⟩

theorem contains_iff {m : NameMap V} {name : String} : m.contains name = true ↔ m.Names name := by
  unfold contains
  rw [Option.isSome_iff_exists]
  constructor
  · intro h
    obtain ⟨v, hv⟩ := h
    obtain ⟨key, hm, hs⟩ := get?_eq_some_iff.mp hv
    exact ⟨key, List.mem_map.mpr ⟨(key, v), hm, rfl⟩, hs⟩
  · intro h
    obtain ⟨key, hk, hs⟩ := h
    obtain ⟨⟨_, v⟩, hm, rfl⟩ := List.mem_map.mp hk
    exact ⟨v, get?_eq_some_iff.mpr ⟨_, hm, hs⟩⟩

theorem names_congr (m : NameMap V) {name other : String} (hs : sameName name other = true) :
    m.Names name ↔ m.Names other := by
  rw [← contains_iff, ← contains_iff, contains, contains, get?_congr m hs]

theorem get?_eq_none_iff {m : NameMap V} {name : String} : m.get? name = none ↔ ¬ m.Names name := by
  rw [← contains_iff]
  simp [contains]

theorem isEmpty_iff {m : NameMap V} : m.isEmpty = true ↔ ∀ name, m.contains name = false := by
  rw [isEmpty, List.isEmpty_iff]
  constructor
  · intro h name
    rw [contains, get?, h]
    rfl
  · intro h
    refine List.eq_nil_iff_forall_not_mem.mpr fun e he => ?_
    have hc := contains_iff.mpr ⟨e.1, List.mem_map_of_mem he, sameName_self e.1⟩
    exact absurd (hc.symm.trans (h e.1)) nofun

theorem isEmpty_of_get? {m : NameMap V} {name : String} {v : V} (h : m.get? name = some v) : m.isEmpty = false := by
  refine Bool.eq_false_iff.mpr fun he => ?_
  have hc := isEmpty_iff.mp he name
  rw [contains, h] at hc
  cases hc

theorem isEmpty_congr {m n : NameMap V} (h : ∀ name, m.contains name = n.contains name) :
    m.isEmpty = n.isEmpty :=
  Bool.eq_iff_iff.mpr (by rw [isEmpty_iff, isEmpty_iff]; simp only [h])

/-! ## Filling a map -/

theorem contains_upsert (m : NameMap V) (name other : String) (f : Option V → V) :
    (m.upsert name f).contains other = (sameName name other || m.contains other) := by
  unfold contains
  rw [get?_upsert]
  cases sameName name other <;> rfl

theorem map_fst_upsertEntries (name : String) (f : Option V → V) : ∀ es : List (String × V),
    (upsertEntries name f es).map Prod.fst =
      es.map Prod.fst ++ (if (lookup name es).isSome then [] else [name])
  | [] => rfl
  | (key, value) :: es => by
    have ih := map_fst_upsertEntries name f es
    cases hk : sameName key name with
    | true => simp [upsertEntries, lookup, hk]
    | false => simpa [upsertEntries, lookup, hk] using ih

theorem keys_upsert (m : NameMap V) (name : String) (f : Option V → V) :
    (m.upsert name f).keys = m.keys ++ (if m.contains name then [] else [name]) :=
  map_fst_upsertEntries name f m.entries

/-- Names that come behind another one add the keys that they add along with it. -/
theorem keys_upsert_append (m : NameMap V) (name : String) (f : Option V → V) (names : List String) :
    (m.upsert name f).keys ++ (firstSpellings names).filter (fun other => !(m.upsert name f).contains other) =
      m.keys ++ (firstSpellings (name :: names)).filter fun other => !m.contains other := by
  have hc : ∀ other, (!(m.upsert name f).contains other) = (!sameName name other && !m.contains other) :=
    fun other => by rw [contains_upsert, Bool.not_or]
  rw [keys_upsert, firstSpellings, List.append_assoc]
  cases hm : m.contains name <;> simp [hc, hm, List.filter_filter, Bool.and_comm]

theorem keys_foldl_upsert {α : Type} (f : α → Option V → V) : ∀ (us : List (String × α)) (m : NameMap V),
    (us.foldl (fun m u => m.upsert u.1 (f u.2)) m).keys =
      m.keys ++ (firstSpellings (us.map Prod.fst)).filter fun name => !m.contains name
  | [], m => by simp [firstSpellings]
  | (name, a) :: us, m => by
    rw [List.foldl_cons, keys_foldl_upsert f us, keys_upsert_append, List.map_cons]

theorem upsertEntries_of_not_mem {name : String} (f : Option V → V) {es : List (String × V)}
    (h : fold name ∉ es.map fun e => fold e.1) : upsertEntries name f es = es ++ [(name, f none)] := by
  induction es with
  | nil => rfl
  | cons e es ih =>
    obtain ⟨key, value⟩ := e
    simp only [List.map_cons, List.mem_cons, not_or] at h
    have hne : sameName key name = false := by simpa [sameName] using Ne.symm h.1
    rw [upsertEntries, hne, if_neg Bool.false_ne_true, ih h.2, List.cons_append]

/-- The map with something put under each name, made from what is found there. -/
def fill {α : Type v} (f : α → Option V → V) (us : List (String × α)) (m : NameMap V) : NameMap V :=
  us.foldl (fun m u => m.upsert u.1 (f u.2)) m

theorem keys_fill_empty {α : Type} (f : α → Option V → V) (us : List (String × α)) :
    (empty.fill f us).keys = firstSpellings (us.map Prod.fst) := by
  have hc : ∀ name, (empty : NameMap V).contains name = false := fun _ => rfl
  rw [fill, keys_foldl_upsert, List.filter_eq_self.mpr fun name _ => by rw [hc]; rfl]
  rfl

/-- What is put under a name is made from all that comes for it. -/
theorem get?_fill {α : Type v} (f : α → Option V → V) (name : String) : ∀ (us : List (String × α)) (m : NameMap V),
    (m.fill f us).get? name =
      ((us.filter fun u => sameName u.1 name).map Prod.snd).foldl (fun old a => some (f a old)) (m.get? name)
  | [], m => rfl
  | u :: us, m => by
    rw [fill, List.foldl_cons, ← fill, get?_fill f name us, get?_upsert]
    cases hs : sameName u.1 name with
    | true => simp [hs, get?_congr m hs]
    | false => simp [hs]

theorem entries_fill {α : Type v} (f : α → Option V → V) : ∀ (us : List (String × α)) (m : NameMap V),
    ((m.keys ++ us.map Prod.fst).map fold).Nodup →
    (m.fill f us).entries = m.entries ++ us.map fun u => (u.1, f u.2 none)
  | [], m, _ => (List.append_nil _).symm
  | u :: us, m, hn => by
    have hfresh : fold u.1 ∉ m.entries.map fun e => fold e.1 := by
      intro hmem
      rw [List.map_append, List.nodup_append, keys, List.map_map] at hn
      exact hn.2.2 _ hmem _ List.mem_cons_self rfl
    have hins : (m.upsert u.1 (f u.2)).entries = m.entries ++ [(u.1, f u.2 none)] := upsertEntries_of_not_mem _ hfresh
    have hkeys : (m.upsert u.1 (f u.2)).keys = m.keys ++ [u.1] := by rw [keys, keys, hins, List.map_append]; rfl
    rw [fill, List.foldl_cons, ← fill, entries_fill f us _ (by simpa [hkeys] using hn), hins, List.append_assoc,
      List.singleton_append, List.map_cons]

/-- A map filled with different names has an entry for each. -/
theorem entries_fill_empty {α : Type v} (f : α → Option V → V) {us : List (String × α)}
    (hn : (us.map fun u => fold u.1).Nodup) : (empty.fill f us).entries = us.map fun u => (u.1, f u.2 none) := by
  have hn' : ((empty : NameMap V).keys ++ us.map Prod.fst).map fold = us.map fun u => fold u.1 := by
    simp [keys, empty, Function.comp_def]
  exact entries_fill f us empty (hn'.symm ▸ hn)

theorem entries_ofList {ps : List (String × V)} (hn : (ps.map fun e => fold e.1).Nodup) :
    (ofList ps).entries = ps := by
  have h := entries_fill_empty (fun v _ => v) hn
  rwa [List.map_id'] at h

end NameMap

end FilterGuard
