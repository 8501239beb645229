import FilterGuard.Proofs.Breach

/-!
# Looser rules

Rules are looser than others if they allow at least the same names, on each of them with
a count that takes at least the same numbers, and check no kind of thing that the others
leave alone. What passes rules passes looser ones. To set no bounds for a name is such a
change, and so is to put a wider count in the place of one; to add the first rule of a
kind is none.
-/

namespace FilterGuard
open Text

/-! ## Looser rules -/

/-- Whether a number of uses is within the bounds that there are. -/
def Within (count : Option Count) (used : UInt32) : Prop :=
  ∀ c ∈ count, c.Admits used.toNat

/-- The second bounds take every number that the first ones take. -/
def Wider (count wide : Option Count) : Prop :=
  ∀ used, Within count used → Within wide used

/-- The second names include the first ones, and have no narrower bounds. A name that
was not listed had none. -/
structure Allowed.Looser (m n : Allowed) : Prop where
  listed : ∀ name, m.contains name = true → n.contains name = true
  counted : ∀ name count, n.get? name = some count → Wider (m.get? name).join count

/-- Rules of a kind are checked only if there are any, so none may come up where there
were none. -/
structure Rules.Looser (r s : Rules) : Prop where
  operators : (r.operators.isEmpty = true → s.operators.isEmpty = true) ∧ Allowed.Looser r.operators s.operators
  properties : (r.properties.isEmpty = true → s.properties.isEmpty = true) ∧ Allowed.Looser r.properties s.properties
  checked : r.propertyOperators.isEmpty = true → s.propertyOperators.isEmpty = true
  declared : ∀ property, r.propertyOperators.contains property = true → s.propertyOperators.contains property = true
  operations : ∀ property n, s.propertyOperators.get? property = some (some n) →
    ∃ m, r.propertyOperators.get? property = some (some m) ∧ Allowed.Looser m n

theorem within_none (used : UInt32) : Within none used :=
  nofun

theorem wider_none (count : Option Count) : Wider count none :=
  fun used _ => within_none used

theorem Wider.refl (count : Option Count) : Wider count count :=
  fun _ => id

/-- A lower least number, and a higher greatest number or none. -/
theorem wider_of_bounds {c d : Count} (hl : d.min ≤ c.min) (hm : d.max = 0 ∨ c.max ≠ 0 ∧ c.max ≤ d.max) :
    Wider (some c) (some d) := by
  intro used h e he
  obtain ⟨hmin, hmax⟩ := h c rfl
  cases he
  refine ⟨Nat.le_trans (UInt32.le_iff_toNat_le.mp hl) hmin, hm.imp_right fun hm => ?_⟩
  exact Nat.le_trans (hmax.resolve_left hm.1) (UInt32.le_iff_toNat_le.mp hm.2)

theorem Allowed.Looser.refl (m : Allowed) : Allowed.Looser m m where
  listed _ := id
  counted name count h := by
    rw [h]
    exact .refl count

theorem Rules.Looser.refl (r : Rules) : r.Looser r where
  operators := ⟨id, .refl _⟩
  properties := ⟨id, .refl _⟩
  checked := id
  declared _ := id
  operations _ n h := ⟨n, h, .refl n⟩

namespace Verdict

/-! ## What passes -/

variable {m n : Allowed} {r s : Rules}

theorem countViolation_eq_none_iff {subject : Subject} {name : String} {count : Count} {used : UInt32} :
    countViolation subject name count used = none ↔ count.Admits used.toNat := by
  have h := countViolation_eq subject name count used.toNat_lt
  rw [UInt32.ofNat_toNat] at h
  rw [h, ite_eq_left_iff]
  simp

theorem usage_congr (used : List String) {name other : String} (hs : sameName name other = true) :
    usage used name = usage used other := by
  have hf : (fun u => sameName u name) = fun u => sameName u other :=
    funext fun u => by rw [sameName, sameName, sameName_iff.mp hs]
  rw [usage, usage, hf]

theorem forbidden_eq_nil_iff {subject : Subject} {used : List String} :
    forbidden subject used m = [] ↔ ∀ name ∈ used, m.contains name = true := by
  simp [forbidden]

theorem miscounted_eq_nil_iff {subject : Subject} {used : List String} :
    miscounted subject used m = [] ↔ ∀ name count, m.get? name = some count → Within count (usage used name) := by
  simp only [miscounted, List.filterMap_eq_nil_iff, Option.bind_eq_none_iff, countViolation_eq_none_iff]
  constructor
  · intro h name count hg c hc
    obtain ⟨key, he, hs⟩ := NameMap.get?_eq_some_iff.mp hg
    rw [← usage_congr used hs]
    exact h _ he c hc
  · intro h e he c hc
    exact h e.1 e.2 (NameMap.get?_eq_some_iff.mpr ⟨e.1, he, sameName_self e.1⟩) c hc

theorem forbiddenOn_eq_nil_iff {declared : NameMap (Option Allowed)} {property : String} {used : List String} :
    forbiddenOn declared property used = [] ↔ declared.contains property = true ∧
      ∀ n, declared.get? property = some (some n) → ∀ operator ∈ used, NameMap.contains n operator = true := by
  unfold forbiddenOn NameMap.contains
  cases declared.get? property with
  | none => simp
  | some found =>
    cases found with
    | none => simp
    | some n => simp [forbidden_eq_nil_iff, NameMap.contains]

theorem checked_eq_nil_iff {subject : Subject} {used : List String} :
    (if m.isEmpty then [] else forbidden subject used m ++ miscounted subject used m) = [] ↔
      m.isEmpty = true ∨ (∀ name ∈ used, m.contains name = true) ∧
        ∀ name count, m.get? name = some count → Within count (usage used name) := by
  rw [ite_eq_left_iff, ← Classical.or_iff_not_imp_left, List.append_eq_nil_iff, forbidden_eq_nil_iff,
    miscounted_eq_nil_iff]

theorem checkPropertyOperators_eq_nil_iff {inv : Inventory} :
    checkPropertyOperators inv r = [] ↔ r.propertyOperators.isEmpty = true ∨
      (∀ e ∈ inv.propertyOperators.entries, forbiddenOn r.propertyOperators e.1 e.2 = []) ∧
      ∀ property m, r.propertyOperators.get? property = some (some m) →
        ∀ name count, m.get? name = some count → Within count (usage (inv.operatorsFor property) name) := by
  rw [checkPropertyOperators, ite_eq_left_iff, ← Classical.or_iff_not_imp_left, List.append_eq_nil_iff,
    List.flatMap_eq_nil_iff, List.flatMap_eq_nil_iff]
  refine or_congr_right (and_congr_right fun _ => ⟨fun h property m hg => ?_, fun h e he => ?_⟩)
  · obtain ⟨key, he, hs⟩ := NameMap.get?_eq_some_iff.mp hg
    have hu : inv.operatorsFor property = inv.operatorsFor key := by
      rw [Inventory.operatorsFor, Inventory.operatorsFor, NameMap.get?_congr _ hs]
    rw [hu]
    exact miscounted_eq_nil_iff.mp (h _ he)
  · obtain ⟨key, _ | m⟩ := e
    · rfl
    · exact miscounted_eq_nil_iff.mpr (h key m (NameMap.get?_eq_some_iff.mpr ⟨key, he, sameName_self key⟩))

/-! ## What passes looser rules -/

theorem counted_looser (h : Allowed.Looser m n) {used : List String}
    (hm : ∀ name count, m.get? name = some count → Within count (usage used name)) :
    ∀ name count, n.get? name = some count → Within count (usage used name) := by
  intro name count hn
  refine h.counted name count hn _ ?_
  cases hg : m.get? name with
  | none => exact within_none _
  | some old => exact hm name old hg

theorem checked_looser (hc : m.isEmpty = true → n.isEmpty = true) (h : Allowed.Looser m n) {subject : Subject}
    {used : List String} (hm : (if m.isEmpty then [] else forbidden subject used m ++ miscounted subject used m) = []) :
    (if n.isEmpty then [] else forbidden subject used n ++ miscounted subject used n) = [] := by
  rw [checked_eq_nil_iff] at hm ⊢
  refine hm.imp hc fun hm => ⟨fun name hu => h.listed name (hm.1 name hu), counted_looser h hm.2⟩

theorem checkPropertyOperators_looser (h : r.Looser s) {inv : Inventory} (hr : checkPropertyOperators inv r = []) :
    checkPropertyOperators inv s = [] := by
  rw [checkPropertyOperators_eq_nil_iff] at hr ⊢
  refine hr.imp h.checked fun hr => ⟨fun e he => ?_, fun property n hn => ?_⟩
  · obtain ⟨hd, ho⟩ := forbiddenOn_eq_nil_iff.mp (hr.1 e he)
    refine forbiddenOn_eq_nil_iff.mpr ⟨h.declared e.1 hd, fun n hn operator hu => ?_⟩
    obtain ⟨m, hm, hl⟩ := h.operations e.1 n hn
    exact hl.listed operator (ho m hm operator hu)
  · obtain ⟨m, hm, hl⟩ := h.operations property n hn
    exact counted_looser hl (hr.2 property m hm)

theorem violations_looser (h : r.Looser s) {inv : Inventory} (hr : violations inv r = []) : violations inv s = [] := by
  unfold violations checkOperators checkProperties at hr ⊢
  rw [List.append_eq_nil_iff, List.append_eq_nil_iff] at hr ⊢
  obtain ⟨⟨ho, hp⟩, hl⟩ := hr
  exact ⟨⟨checked_looser h.operators.1 h.operators.2 ho, checked_looser h.properties.1 h.properties.2 hp⟩,
    checkPropertyOperators_looser h hl⟩

/-- What passes rules passes looser ones. -/
theorem passed_looser (h : r.Looser s) {inv : Inventory} (hr : (Verdict.of inv (some r)).passed = true) :
    (Verdict.of inv (some s)).passed = true :=
  passed_of_iff.mpr (violations_looser h (passed_of_iff.mp hr))

end Verdict

/-! ## Changes that loosen -/

/-- Wider bounds for a name, or no bounds for a further one. -/
theorem Allowed.looser_insert (m : Allowed) (name : String) {count : Option Count}
    (h : Wider (m.get? name).join count) : Allowed.Looser m (m.insert name count) where
  listed other hm := by
    rw [NameMap.insert, NameMap.contains_upsert, hm, Bool.or_true]
  counted other new hn := by
    rw [NameMap.get?_insert] at hn
    cases hs : sameName name other with
    | true =>
      rw [hs, if_pos rfl] at hn
      cases hn
      rwa [← NameMap.get?_congr m hs]
    | false =>
      rw [hs, if_neg Bool.false_ne_true] at hn
      rw [hn]
      exact .refl new

namespace Rules

variable (r : Rules)

theorem looser_withOperator {name : String} {count : Option Count} (he : r.operators.isEmpty = false)
    (h : Wider (r.operators.get? name).join count) : r.Looser (r.withOperator name count) :=
  { Looser.refl r with operators := ⟨fun hn => absurd (he.symm.trans hn) nofun, Allowed.looser_insert _ name h⟩ }

theorem looser_withProperty {path : String} {count : Option Count} (he : r.properties.isEmpty = false)
    (h : Wider (r.properties.get? path).join count) : r.Looser (r.withProperty path count) :=
  { Looser.refl r with properties := ⟨fun hn => absurd (he.symm.trans hn) nofun, Allowed.looser_insert _ path h⟩ }

/-- A change of what may be done with one property. -/
theorem looser_upsert {path : String} {f : Option (Option Allowed) → Option Allowed}
    (he : r.propertyOperators.isEmpty = false)
    (h : ∀ n, f (r.propertyOperators.get? path) = some n →
      ∃ m, r.propertyOperators.get? path = some (some m) ∧ Allowed.Looser m n) :
    r.Looser { r with propertyOperators := r.propertyOperators.upsert path f } :=
  { Looser.refl r with
    checked := fun hn => absurd (he.symm.trans hn) nofun
    declared := fun property hd => by
      show (r.propertyOperators.upsert path f).contains property = true
      rw [NameMap.contains_upsert, hd, Bool.or_true]
    operations := fun property n hn => by
      have hn : (r.propertyOperators.upsert path f).get? property = some (some n) := hn
      rw [NameMap.get?_upsert] at hn
      cases hs : sameName path property with
      | true =>
        rw [hs, if_pos rfl] at hn
        rw [← NameMap.get?_congr _ hs]
        exact h n (Option.some.inj hn)
      | false =>
        rw [hs, if_neg Bool.false_ne_true] at hn
        exact ⟨n, hn, .refl n⟩ }

theorem looser_withAnyPropertyOperator (path : String) (he : r.propertyOperators.isEmpty = false) :
    r.Looser (r.withAnyPropertyOperator path) :=
  r.looser_upsert he nofun

theorem looser_withPropertyOperator {path operator : String} {m : Allowed} {count : Option Count}
    (hm : r.propertyOperators.get? path = some (some m)) (h : Wider (m.get? operator).join count) :
    r.Looser (r.withPropertyOperator path operator count) := by
  refine r.looser_upsert (NameMap.isEmpty_of_get? hm) fun n hn => ?_
  rw [hm] at hn
  cases hn
  exact ⟨m, hm, Allowed.looser_insert m operator h⟩

end Rules

namespace Verdict

/-- A filter that passes goes on to pass when a name is allowed without bounds beside others of
its kind, when a property is opened to every operator, and when declared bounds give way to wider ones. -/
theorem passed_loosened {t : Tree} {r : Rules} (h : (onTree t (some r)).passed = true) :
    (r.operators.isEmpty = false → ∀ name, (onTree t (some (r.withOperator name none))).passed = true) ∧
    (r.properties.isEmpty = false → ∀ path, (onTree t (some (r.withProperty path none))).passed = true) ∧
    (r.propertyOperators.isEmpty = false →
      ∀ path, (onTree t (some (r.withAnyPropertyOperator path))).passed = true) ∧
    (∀ name count wide, r.operators.get? name = some count → Wider count wide →
      (onTree t (some (r.withOperator name wide))).passed = true) ∧
    (∀ path count wide, r.properties.get? path = some count → Wider count wide →
      (onTree t (some (r.withProperty path wide))).passed = true) ∧
    (∀ path m operator count wide, r.propertyOperators.get? path = some (some m) → m.get? operator = some count →
      Wider count wide → (onTree t (some (r.withPropertyOperator path operator wide))).passed = true) := by
  have hjoin : ∀ {m : Allowed} {name count wide}, m.get? name = some count → Wider count wide →
      Wider (m.get? name).join wide := fun hg hw => by rwa [hg]
  refine ⟨fun he name => ?_, fun he path => ?_, fun he path => ?_, fun name count wide hg hw => ?_,
    fun path count wide hg hw => ?_, fun path m operator count wide hm hg hw => ?_⟩
  · exact passed_looser (r.looser_withOperator he (wider_none _)) h
  · exact passed_looser (r.looser_withProperty he (wider_none _)) h
  · exact passed_looser (r.looser_withAnyPropertyOperator path he) h
  · exact passed_looser (r.looser_withOperator (NameMap.isEmpty_of_get? hg) (hjoin hg hw)) h
  · exact passed_looser (r.looser_withProperty (NameMap.isEmpty_of_get? hg) (hjoin hg hw)) h
  · exact passed_looser (r.looser_withPropertyOperator hm (hjoin hg hw)) h

/-- Rules that just fit the two accesses to one property. -/
def fitted : Rules :=
  ((((Rules.empty.withOperator "eq" (some (.exactly 1))).withOperator "NE" (some (.atMost 1))).withOperator "and"
    none).withProperty "EMAIL" (some (.exactly 2))).withPropertyOperator "email" "eq" (some (.exactly 1))
    |>.withPropertyOperator "Email" "ne" none |>.withPropertyOperator "email" "And" (some (.atMost 2))

theorem passed_loosened_fitted :
    (onTree twoSpellings (some fitted)).passed = true ∧
    (onTree twoSpellings (some (fitted.withOperator "Eq" none))).passed = true ∧
    (onTree twoSpellings (some (fitted.withProperty "name" none))).passed = true ∧
    (onTree twoSpellings (some (fitted.withAnyPropertyOperator "name"))).passed = true ∧
    (onTree twoSpellings (some (fitted.withOperator "ne" (some (.atMost 5))))).passed = true ∧
    (onTree twoSpellings (some (fitted.withProperty "Email" (some ⟨1, 3⟩)))).passed = true ∧
    (onTree twoSpellings (some (fitted.withPropertyOperator "EMAIL" "EQ" (some (.atLeast 1))))).passed = true := by
  have h : (onTree twoSpellings (some fitted)).passed = true := by decide +kernel
  obtain ⟨ho, hp, ha, hwo, hwp, hwa⟩ := passed_loosened h
  refine ⟨h, ho (by decide +kernel) _, hp (by decide +kernel) _, ha (by decide +kernel) _, ?_, ?_, ?_⟩
  · exact hwo _ (some (.atMost 1)) _ (by decide +kernel) (wider_of_bounds (by decide) (.inr (by decide)))
  · exact hwp _ (some (.exactly 2)) _ (by decide +kernel) (wider_of_bounds (by decide) (.inr (by decide)))
  · refine hwa _ _ _ (some (.exactly 1)) _ rfl ?_ (wider_of_bounds (by decide) (.inl rfl))
    decide +kernel

/-- The first operator that is allowed forbids all others. -/
example : (onTree twoSpellings (some .empty)).passed = true ∧
    (onTree twoSpellings (some (Rules.empty.withOperator "and" none))).passed = false := by
  decide +kernel

end Verdict

end FilterGuard
