import FilterGuard.Proofs.EqualMaps
import FilterGuard.Proofs.Loosening
import FilterGuard.Proofs.RuleForms

/-!
# Equal rules

Rules are equal if the same is found in them under every name, whatever the order and
the spelling of the names. To leave out the bounds of a name is to set none. Rules that
are equal with all bounds said let the same filters pass, and report the same where
they name the same things in the same order.
-/

namespace FilterGuard
open Text

/-! ## Maps -/

namespace NameMap

variable {V : Type} {W : Type}

/-- The map with something else under each name. -/
def mapValues (f : V → W) (m : NameMap V) : NameMap W where
  entries := m.entries.map fun e => (e.1, f e.2)
  distinct := by
    rw [List.map_map]
    exact m.distinct

theorem keys_mapValues (f : V → W) (m : NameMap V) : (m.mapValues f).keys = m.keys := by
  rw [keys, mapValues, List.map_map]
  rfl

theorem lookup_map (f : V → W) (name : String) : ∀ es : List (String × V),
    lookup name (es.map fun e => (e.1, f e.2)) = (lookup name es).map f
  | [] => rfl
  | (key, v) :: es => by
    rw [List.map_cons, lookup, lookup, lookup_map f name es]
    split <;> rfl

theorem get?_mapValues (f : V → W) (m : NameMap V) (name : String) : (m.mapValues f).get? name = (m.get? name).map f :=
  lookup_map f name m.entries

theorem contains_mapValues (f : V → W) (m : NameMap V) (name : String) :
    (m.mapValues f).contains name = m.contains name := by
  rw [contains, contains, get?_mapValues, Option.isSome_map]

theorem isEmpty_mapValues (f : V → W) (m : NameMap V) : (m.mapValues f).isEmpty = m.isEmpty :=
  List.isEmpty_map

end NameMap

/-! ## Bounds that are not said -/

namespace Rules

/-- What is allowed with a count for each name, of zero where there was none. -/
def explicitBounds (m : Allowed) : Allowed :=
  m.mapValues fun count => some (count.getD .free)

/-- The rules with a count for each name. -/
def explicit (r : Rules) : Rules where
  operators := explicitBounds r.operators
  properties := explicitBounds r.properties
  propertyOperators := r.propertyOperators.mapValues (Option.map explicitBounds)

/-- The names in rules, in their order and as they are spelled. -/
def names (r : Rules) : List String × List String × List (String × Option (List String)) :=
  (r.operators.keys, r.properties.keys, (r.propertyOperators.mapValues (Option.map NameMap.keys)).entries)

end Rules

namespace Verdict
open Rules

theorem forbidden_explicitBounds (subject : Subject) (used : List String) (m : Allowed) :
    forbidden subject used (explicitBounds m) = forbidden subject used m :=
  forbidden_congr (m.contains_mapValues _) subject used

theorem miscounted_explicitBounds (subject : Subject) (used : List String) (m : Allowed) :
    miscounted subject used (explicitBounds m) = miscounted subject used m := by
  unfold miscounted explicitBounds NameMap.mapValues
  rw [List.filterMap_map]
  refine List.filterMap_congr fun e _ => ?_
  exact (bind_countViolation subject e.1 e.2 _).symm

theorem forbiddenOn_explicit (declared : NameMap (Option Allowed)) (property : String) (used : List String) :
    forbiddenOn (declared.mapValues (Option.map explicitBounds)) property used =
      forbiddenOn declared property used := by
  unfold forbiddenOn
  rw [NameMap.get?_mapValues]
  match declared.get? property with
  | none | some none => rfl
  | some (some allowed) => exact forbidden_explicitBounds _ _ _

/-- To say that there are no bounds changes no report. -/
theorem violations_explicit (inv : Inventory) (r : Rules) : violations inv r.explicit = violations inv r := by
  have hempty : ∀ m : Allowed, (explicitBounds m).isEmpty = m.isEmpty := fun m => m.isEmpty_mapValues _
  have hlisted : (r.propertyOperators.mapValues (Option.map explicitBounds)).entries.flatMap (fun e =>
        e.2.elim [] (miscounted (.operationOn e.1) (inv.operatorsFor e.1))) =
      r.propertyOperators.entries.flatMap fun e =>
        e.2.elim [] (miscounted (.operationOn e.1) (inv.operatorsFor e.1)) := by
    rw [NameMap.mapValues, List.flatMap_map]
    refine List.flatMap_congr fun e _ => ?_
    cases e.2 with
    | none => rfl
    | some allowed => exact miscounted_explicitBounds _ _ _
  unfold violations checkOperators checkProperties checkPropertyOperators explicit
  simp only [hlisted, hempty, forbidden_explicitBounds, miscounted_explicitBounds, forbiddenOn_explicit,
    NameMap.isEmpty_mapValues]

theorem of_explicit (inv : Inventory) (r : Rules) : Verdict.of inv (some r.explicit) = Verdict.of inv (some r) := by
  rw [Verdict.of, Verdict.of, Option.elim_some, Option.elim_some, violations_explicit]

end Verdict

/-! ## Rules in which the same is found -/

namespace NameMap

/-- Whether the same is found under every name. -/
def Agrees {V : Type} (m n : NameMap V) : Prop :=
  ∀ name, m.get? name = n.get? name

theorem Agrees.contains_eq {V : Type} {m n : NameMap V} (h : m.Agrees n) (name : String) :
    m.contains name = n.contains name := by
  rw [contains, contains, h name]

end NameMap

namespace Rules

structure Agree (r s : Rules) : Prop where
  operators : r.operators.Agrees s.operators
  properties : r.properties.Agrees s.properties
  propertyOperators : ∀ name,
    Option.Rel (Option.Rel NameMap.Agrees) (r.propertyOperators.get? name) (s.propertyOperators.get? name)

theorem Agree.symm {r s : Rules} (h : r.Agree s) : s.Agree r where
  operators name := (h.operators name).symm
  properties name := (h.properties name).symm
  propertyOperators name := by
    have hr := h.propertyOperators name
    generalize r.propertyOperators.get? name = found, s.propertyOperators.get? name = found' at hr
    cases hr with
    | none => exact .none
    | some hr =>
      cases hr with
      | none => exact .some .none
      | some hr => exact .some (.some fun name => (hr name).symm)

theorem agree_of_beq {r s : Rules} (h : (r == s) = true) : r.Agree s := by
  obtain ⟨h, hl⟩ := Bool.and_eq_true_iff.mp h
  obtain ⟨ho, hp⟩ := Bool.and_eq_true_iff.mp h
  refine ⟨NameMap.get?_of_beq ho, NameMap.get?_of_beq hp, fun name => ?_⟩
  have hr := NameMap.rel_get?_of_beq hl name
  generalize r.propertyOperators.get? name = found, s.propertyOperators.get? name = found' at hr
  cases hr with
  | none => exact .none
  | @some v w hr =>
    match v, w, hr with
    | none, none, _ => exact .some .none
    | some m, some n, hr => exact .some (.some fun name => (NameMap.get?_of_beq hr name).symm)

theorem Agree.contains_eq {r s : Rules} (h : r.Agree s) (name : String) :
    r.propertyOperators.contains name = s.propertyOperators.contains name :=
  NameMap.contains_eq_of_rel (h.propertyOperators name)

theorem looser_of_agrees {m n : Allowed} (h : m.Agrees n) : Allowed.Looser m n where
  listed name hm := (h.contains_eq name).symm.trans hm
  counted name count hn := by
    rw [h name, hn]
    exact .refl count

/-- Rules in which the same is found are looser than each other. -/
theorem Agree.looser {r s : Rules} (h : r.Agree s) : r.Looser s where
  operators := ⟨(NameMap.isEmpty_congr h.operators.contains_eq).symm.trans, looser_of_agrees h.operators⟩
  properties := ⟨(NameMap.isEmpty_congr h.properties.contains_eq).symm.trans, looser_of_agrees h.properties⟩
  checked := (NameMap.isEmpty_congr h.contains_eq).symm.trans
  declared property := (h.contains_eq property).symm.trans
  operations property n hn := by
    have hr := h.propertyOperators property
    rw [hn] at hr
    generalize r.propertyOperators.get? property = found at hr
    cases hr with
    | some hr =>
      cases hr with
      | some hr => exact ⟨_, rfl, looser_of_agrees hr⟩

end Rules

namespace Verdict

/-- The same filters pass equal rules. -/
theorem passed_of_beq {r s : Rules} (h : (r == s) = true) (inv : Inventory) :
    (Verdict.of inv (some r)).passed = (Verdict.of inv (some s)).passed := by
  have ha := Rules.agree_of_beq h
  exact Bool.eq_iff_iff.mpr ⟨passed_looser ha.looser, passed_looser ha.symm.looser⟩

end Verdict

/-! ## The same rules -/

namespace Rules

theorem names_explicit (r : Rules) : r.explicit.names = r.names := by
  have hlisted : (r.propertyOperators.mapValues (Option.map explicitBounds)).mapValues (Option.map NameMap.keys) =
      r.propertyOperators.mapValues (Option.map NameMap.keys) := by
    refine NameMap.eq_of_get? (by simp only [NameMap.keys_mapValues]) fun name => ?_
    simp only [NameMap.get?_mapValues, Option.map_map]
    congr 1
    funext listed
    cases listed with
    | none => rfl
    | some m => exact congrArg some (m.keys_mapValues _)
  simp only [names, explicit, hlisted, explicitBounds, NameMap.keys_mapValues]

/-- Equal rules with the same names in the same order are the same. -/
theorem eq_of_names {r s : Rules} (h : (r == s) = true) (hn : r.names = s.names) : r = s := by
  obtain ⟨h, hl⟩ := Bool.and_eq_true_iff.mp h
  obtain ⟨ho, hp⟩ := Bool.and_eq_true_iff.mp h
  simp only [names, Prod.mk.injEq] at hn
  obtain ⟨hno, hnp, hnl⟩ := hn
  have hkeys : r.propertyOperators.keys = s.propertyOperators.keys := by
    rw [← NameMap.keys_mapValues (Option.map NameMap.keys), NameMap.keys, hnl, ← NameMap.keys,
      NameMap.keys_mapValues]
  have hlisted : r.propertyOperators = s.propertyOperators := by
    refine NameMap.eq_of_get? hkeys fun name => ?_
    have hr := NameMap.rel_get?_of_beq hl name
    have hk : (r.propertyOperators.get? name).map (Option.map NameMap.keys) =
        (s.propertyOperators.get? name).map (Option.map NameMap.keys) := by
      rw [← NameMap.get?_mapValues, ← NameMap.get?_mapValues, NameMap.get?, NameMap.get?, hnl]
    generalize r.propertyOperators.get? name = found, s.propertyOperators.get? name = found' at hr hk
    cases hr with
    | none => rfl
    | @some v w hr =>
      have hk := Option.some.inj hk
      cases v with
      | none =>
        cases w with
        | none => rfl
        | some n => cases hk
      | some m =>
        cases w with
        | none => cases hk
        | some n => rw [NameMap.eq_of_get? (Option.some.inj hk) fun name => (NameMap.get?_of_beq hr name).symm]
  obtain ⟨_, _, _⟩ := r
  obtain ⟨_, _, _⟩ := s
  cases NameMap.eq_of_get? hno (NameMap.get?_of_beq ho)
  cases NameMap.eq_of_get? hnp (NameMap.get?_of_beq hp)
  cases hlisted
  rfl

end Rules

namespace Verdict

/-- Rules that are equal when all bounds are said let the same filters pass, and give the
same verdict if they have the same names in the same order. -/
theorem onTree_explicit {r s : Rules} (h : (r.explicit == s.explicit) = true) (t : Tree) :
    (onTree t (some r)).passed = (onTree t (some s)).passed ∧
      (r.names = s.names → onTree t (some r) = onTree t (some s)) := by
  unfold onTree
  rw [← of_explicit _ r, ← of_explicit _ s]
  refine ⟨passed_of_beq h t.inventory, fun hn => ?_⟩
  rw [Rules.eq_of_names h (by rw [Rules.names_explicit, Rules.names_explicit, hn])]

/-- Rules with a name without bounds and a property that takes every operator. -/
def unbounded : Rules :=
  (((Rules.empty.withOperator "EQ" (some (.exactly 2))).withOperator "and" none).withPropertyOperator
    "EMAIL" "eq" (some (.atMost 1))).withAnyPropertyOperator "name"

/-- The same in another order and spelling. -/
def unboundedTurned : Rules :=
  (((Rules.empty.withOperator "And" (some .free)).withOperator "eq" (some (.exactly 2))).withAnyPropertyOperator
    "Name").withPropertyOperator "email" "EQ" (some (.atMost 1))

theorem onTree_explicit_unbounded :
    (unbounded.explicit == unboundedTurned.explicit) = true ∧ unbounded.names ≠ unboundedTurned.names ∧
    (onTree twoSpellings (some unbounded)).passed = (onTree twoSpellings (some unboundedTurned)).passed ∧
    (unbounded.explicit == unbounded.explicit.explicit) = true ∧ unbounded.names = unbounded.explicit.names ∧
    onTree twoSpellings (some unbounded) = onTree twoSpellings (some unbounded.explicit) ∧
    (onTree twoSpellings (some unbounded)).messages ≠ (onTree twoSpellings (some unboundedTurned)).messages := by
  have ht : (unbounded.explicit == unboundedTurned.explicit) = true := by decide +kernel
  have he : (unbounded.explicit == unbounded.explicit.explicit) = true := by decide +kernel
  have hn : unbounded.names = unbounded.explicit.names := by decide +kernel
  exact ⟨ht, by decide +kernel, (onTree_explicit ht twoSpellings).1, he, hn, (onTree_explicit he twoSpellings).2 hn,
    by decide +kernel⟩

end Verdict

end FilterGuard
