import FilterGuard.Filter
import FilterGuard.Proofs.Names

/-!
# Breaches of rules

What rules ask of an inventory, said without the checks: a used name is listed,
and a listed name with a count is used that often. A verdict passes if nothing
is asked in vain, and its messages are those of the breaches, each once.
-/

namespace FilterGuard
open Text

/-! ## What is asked -/

def occurrences (used : List String) (name : String) : Nat :=
  used.countP fun u => sameName u name

/-- The numbers of uses that a count takes. -/
def Count.Admits (c : Count) (n : Nat) : Prop :=
  c.min.toNat ≤ n ∧ (c.max = 0 ∨ n ≤ c.max.toNat)

instance (c : Count) (n : Nat) : Decidable (c.Admits n) :=
  inferInstanceAs (Decidable (_ ∧ _))

structure Allowed.Kept (allowed : Allowed) (used : List String) : Prop where
  listed : ∀ name ∈ used, allowed.Names name
  counted : ∀ name count, (name, some count) ∈ allowed.entries → count.Admits (occurrences used name)

/-- A property without a list of operators takes all of them. A property that is
declared and not used has no operators around it. -/
structure OperationsKept (declared : NameMap (Option Allowed)) (inv : Inventory) : Prop where
  known : ∀ property ∈ inv.propertyOperators.keys, declared.Names property
  listed : ∀ property used, (property, used) ∈ inv.propertyOperators.entries →
    ∀ key allowed, (key, some allowed) ∈ declared.entries → sameName key property = true →
      ∀ operator ∈ used, NameMap.Names allowed operator
  counted : ∀ property allowed, (property, some allowed) ∈ declared.entries →
    ∀ operator count, (operator, some count) ∈ allowed.entries →
      count.Admits (occurrences (inv.operatorsFor property) operator)

/-- Rules of a kind of which there are none ask for nothing. -/
structure Rules.Kept (r : Rules) (inv : Inventory) : Prop where
  operators : r.operators.entries = [] ∨ Allowed.Kept r.operators inv.operators
  properties : r.properties.entries = [] ∨ Allowed.Kept r.properties inv.properties
  operations : r.propertyOperators.entries = [] ∨ OperationsKept r.propertyOperators inv

/-! ## What is reported -/

/-- The report on a number of uses that a count does not take. -/
def Count.report (c : Count) (subject : Subject) (name : String) (n : Nat) : Violation :=
  if n = 0 then .missing subject name
  else if c.min = c.max then .outside subject name .exactly c.max (UInt32.ofNat n)
  else if n < c.min.toNat then .outside subject name .least c.min (UInt32.ofNat n)
  else .outside subject name .most c.max (UInt32.ofNat n)

/-- A used name that is not listed, and its report. -/
def Unlisted (subject : Subject) (allowed : Allowed) (used : List String) (v : Violation) : Prop :=
  ∃ name ∈ used, ¬ NameMap.Names allowed name ∧ v = .notAllowed subject name

/-- A listed name that is not used as often as its count says, and its report. -/
def Miscounted (subject : Subject) (allowed : Allowed) (used : List String) (v : Violation) : Prop :=
  ∃ name count, (name, some count) ∈ allowed.entries ∧ ¬ count.Admits (occurrences used name) ∧
    v = count.report subject name (occurrences used name)

/-- Something that rules ask of an inventory in vain, with its report. -/
inductive Breach (r : Rules) (inv : Inventory) : Violation → Prop
  | operator {v} (hr : r.operators.entries ≠ [])
      (h : Unlisted .operator r.operators inv.operators v ∨ Miscounted .operator r.operators inv.operators v) :
      Breach r inv v
  | property {v} (hr : r.properties.entries ≠ [])
      (h : Unlisted .property r.properties inv.properties v ∨ Miscounted .property r.properties inv.properties v) :
      Breach r inv v
  | undeclared {property} (hr : r.propertyOperators.entries ≠ []) (hp : property ∈ inv.propertyOperators.keys)
      (hn : ¬ r.propertyOperators.Names property) : Breach r inv (.notAllowed .property property)
  | operation {property used key allowed v} (hu : (property, used) ∈ inv.propertyOperators.entries)
      (hd : (key, some allowed) ∈ r.propertyOperators.entries) (hs : sameName key property = true)
      (h : Unlisted (.operationOn property) allowed used v) : Breach r inv v
  | operationCount {property allowed v} (hd : (property, some allowed) ∈ r.propertyOperators.entries)
      (h : Miscounted (.operationOn property) allowed (inv.operatorsFor property) v) : Breach r inv v

theorem Allowed.kept_iff (subject : Subject) (allowed : Allowed) (used : List String) :
    Allowed.Kept allowed used ↔
      ∀ v, ¬ (Unlisted subject allowed used v ∨ Miscounted subject allowed used v) := by
  constructor
  · intro h v hv
    rcases hv with ⟨name, hu, hn, -⟩ | ⟨name, count, he, hn, -⟩
    · exact hn (h.listed name hu)
    · exact hn (h.counted name count he)
  · intro h
    refine ⟨fun name hu => ?_, fun name count he => ?_⟩
    · refine Classical.byContradiction fun hn => ?_
      exact h _ (.inl ⟨name, hu, hn, rfl⟩)
    · refine Classical.byContradiction fun hn => ?_
      exact h _ (.inr ⟨name, count, he, hn, rfl⟩)

theorem Rules.kept_iff (r : Rules) (inv : Inventory) : r.Kept inv ↔ ∀ v, ¬ Breach r inv v := by
  constructor
  · intro h v hv
    cases hv with
    | operator hr hv => exact (Allowed.kept_iff .operator _ _).mp (h.operators.resolve_left hr) v hv
    | property hr hv => exact (Allowed.kept_iff .property _ _).mp (h.properties.resolve_left hr) v hv
    | undeclared hr hp hn => exact hn ((h.operations.resolve_left hr).known _ hp)
    | operation hu hd hs hv =>
      obtain ⟨operator, ho, hn, -⟩ := hv
      have hk := h.operations.resolve_left (List.ne_nil_of_mem hd)
      exact hn (hk.listed _ _ hu _ _ hd hs operator ho)
    | operationCount hd hv =>
      obtain ⟨operator, count, he, hn, -⟩ := hv
      have hk := h.operations.resolve_left (List.ne_nil_of_mem hd)
      exact hn (hk.counted _ _ hd operator count he)
  · intro h
    refine ⟨?_, ?_, ?_⟩
    · refine Classical.or_iff_not_imp_left.mpr fun hr => (Allowed.kept_iff .operator _ _).mpr fun v hv => ?_
      exact h v (.operator hr hv)
    · refine Classical.or_iff_not_imp_left.mpr fun hr => (Allowed.kept_iff .property _ _).mpr fun v hv => ?_
      exact h v (.property hr hv)
    · refine Classical.or_iff_not_imp_left.mpr fun hr => ⟨fun property hp => ?_, ?_, ?_⟩
      · refine Classical.byContradiction fun hn => ?_
        exact h _ (.undeclared hr hp hn)
      · intro property used hu key allowed hd hs operator ho
        refine Classical.byContradiction fun hn => ?_
        exact h _ (.operation hu hd hs ⟨operator, ho, hn, rfl⟩)
      · intro property allowed hd operator count he
        refine Classical.byContradiction fun hn => ?_
        exact h _ (.operationCount hd ⟨operator, count, he, hn, rfl⟩)

/-! ## What is checked -/

/-- What a list holds fits into 32 bits. -/
structure Inventory.Fits (inv : Inventory) : Prop where
  operators : inv.operators.length < UInt32.size
  properties : inv.properties.length < UInt32.size
  operations : ∀ e ∈ inv.propertyOperators.entries, e.2.length < UInt32.size

namespace Verdict

theorem occurrences_lt {used : List String} (h : used.length < UInt32.size) (name : String) :
    occurrences used name < UInt32.size :=
  Nat.lt_of_le_of_lt List.countP_le_length h

theorem usage_eq {used : List String} (h : used.length < UInt32.size) (name : String) :
    usage used name = UInt32.ofNat (occurrences used name) := by
  have hn := occurrences_lt h name
  unfold usage
  rw [show used.countP (fun u => sameName u name) = occurrences used name from rfl,
    Nat.min_eq_left (Nat.le_sub_one_of_lt hn)]

theorem eq_ofNat_iff {n : Nat} (hn : n < UInt32.size) (m : UInt32) : UInt32.ofNat n = m ↔ n = m.toNat := by
  rw [← UInt32.toNat_inj, UInt32.toNat_ofNat_of_lt' hn]

/-- The cascade of tests finds a violation if the number is not taken, and then
the one that is reported. -/
theorem countViolation_eq (subject : Subject) (name : String) (count : Count) {n : Nat}
    (hn : n < UInt32.size) :
    countViolation subject name count (UInt32.ofNat n) =
      if count.Admits n then none else some (count.report subject name n) := by
  obtain ⟨least, most⟩ := count
  have hz : most = 0 ↔ most.toNat = 0 := UInt32.toNat_inj.symm
  unfold countViolation Count.report Count.Admits
  simp only [UInt32.lt_iff_toNat_lt, UInt32.toNat_ofNat_of_lt' hn, UInt32.toNat_zero, ne_eq, eq_ofNat_iff hn, hz]
  have he : least = most ↔ least.toNat = most.toNat := UInt32.toNat_inj.symm
  rcases Nat.eq_zero_or_pos n with h0 | h0
  · grind
  · rcases Nat.lt_trichotomy n least.toNat with hl | hl | hl
    · grind
    · grind
    · grind

theorem mem_forbidden (subject : Subject) (used : List String) (allowed : Allowed) (v : Violation) :
    v ∈ forbidden subject used allowed ↔ Unlisted subject allowed used v := by
  unfold forbidden Unlisted
  simp only [List.mem_map, List.mem_filter, Bool.not_eq_true', ← Bool.not_eq_true, NameMap.contains_iff]
  constructor
  · intro h
    obtain ⟨name, ⟨hu, hn⟩, rfl⟩ := h
    exact ⟨name, hu, hn, rfl⟩
  · intro h
    obtain ⟨name, hu, hn, rfl⟩ := h
    exact ⟨name, ⟨hu, hn⟩, rfl⟩

theorem mem_miscounted (subject : Subject) {used : List String} (hu : used.length < UInt32.size)
    (allowed : Allowed) (v : Violation) :
    v ∈ miscounted subject used allowed ↔ Miscounted subject allowed used v := by
  unfold miscounted Miscounted
  simp only [List.mem_filterMap, Option.bind_eq_some_iff, usage_eq hu,
    countViolation_eq _ _ _ (occurrences_lt hu _), Option.ite_none_left_eq_some, Option.some.injEq]
  constructor
  · intro h
    obtain ⟨⟨name, _⟩, he, count, rfl, hn, rfl⟩ := h
    exact ⟨name, count, he, hn, rfl⟩
  · intro h
    obtain ⟨name, count, he, hn, rfl⟩ := h
    exact ⟨(name, some count), he, count, rfl, hn, rfl⟩

theorem mem_forbiddenOn (declared : NameMap (Option Allowed)) (property : String) (used : List String)
    (v : Violation) :
    v ∈ forbiddenOn declared property used ↔
      (¬ declared.Names property ∧ v = .notAllowed .property property) ∨
      ∃ key allowed, (key, some allowed) ∈ declared.entries ∧ sameName key property = true ∧
        Unlisted (.operationOn property) allowed used v := by
  unfold forbiddenOn
  cases hd : declared.get? property with
  | none =>
    have hn := NameMap.get?_eq_none_iff.mp hd
    constructor
    · intro hv
      exact .inl ⟨hn, List.mem_singleton.mp hv⟩
    · intro h
      rcases h with ⟨-, rfl⟩ | ⟨key, allowed, hm, hs, -⟩
      · exact List.mem_singleton.mpr rfl
      · exact absurd ⟨key, List.mem_map.mpr ⟨_, hm, rfl⟩, hs⟩ hn
  | some found =>
    have hn : declared.Names property := NameMap.contains_iff.mp (by simp [NameMap.contains, hd])
    have hf : ∀ key allowed, (key, some allowed) ∈ declared.entries → sameName key property = true →
        found = some allowed := fun key allowed hm hs =>
      Option.some.inj (hd.symm.trans (NameMap.get?_eq_some_iff.mpr ⟨key, hm, hs⟩))
    cases found with
    | none =>
      constructor
      · intro hv
        cases hv
      · intro h
        rcases h with ⟨h, -⟩ | ⟨key, allowed, hm, hs, -⟩
        · exact absurd hn h
        · cases hf key allowed hm hs
    | some allowed =>
      rw [mem_forbidden]
      constructor
      · intro hv
        obtain ⟨key, hm, hs⟩ := NameMap.get?_eq_some_iff.mp hd
        exact .inr ⟨key, allowed, hm, hs, hv⟩
      · intro h
        rcases h with ⟨h, -⟩ | ⟨key, allowed', hm, hs, hv⟩
        · exact absurd hn h
        · cases hf key allowed' hm hs
          exact hv

theorem mem_if_rules {V : Type} (m : NameMap V) (vs : List Violation) (v : Violation) :
    v ∈ (if m.isEmpty = true then [] else vs) ↔ m.entries ≠ [] ∧ v ∈ vs := by
  unfold NameMap.isEmpty
  cases m.entries <;> simp

theorem length_operatorsFor {inv : Inventory} (hf : inv.Fits) (property : String) :
    (inv.operatorsFor property).length < UInt32.size := by
  unfold Inventory.operatorsFor
  cases hg : inv.propertyOperators.get? property with
  | none => simp
  | some used =>
    obtain ⟨key, hm, -⟩ := NameMap.get?_eq_some_iff.mp hg
    exact hf.operations _ hm

theorem mem_checkPropertyOperators {inv : Inventory} (hf : inv.Fits) (r : Rules) (v : Violation) :
    v ∈ checkPropertyOperators inv r ↔ r.propertyOperators.entries ≠ [] ∧
      ((∃ e ∈ inv.propertyOperators.entries, v ∈ forbiddenOn r.propertyOperators e.1 e.2) ∨
        ∃ property allowed, (property, some allowed) ∈ r.propertyOperators.entries ∧
          Miscounted (.operationOn property) allowed (inv.operatorsFor property) v) := by
  unfold checkPropertyOperators
  rw [mem_if_rules, List.mem_append, List.mem_flatMap, List.mem_flatMap]
  refine and_congr_right fun _ => or_congr_right ?_
  constructor
  · intro h
    obtain ⟨⟨property, _ | allowed⟩, he, hv⟩ := h
    · cases hv
    · exact ⟨property, allowed, he, (mem_miscounted _ (length_operatorsFor hf _) _ _).mp hv⟩
  · intro h
    obtain ⟨property, allowed, he, hv⟩ := h
    exact ⟨_, he, (mem_miscounted _ (length_operatorsFor hf _) _ _).mpr hv⟩

/-- The checks find the breaches. -/
theorem mem_violations {inv : Inventory} (hf : inv.Fits) (r : Rules) (v : Violation) :
    v ∈ violations inv r ↔ Breach r inv v := by
  unfold violations checkOperators checkProperties
  simp only [List.mem_append, mem_if_rules, mem_forbidden, mem_miscounted _ hf.operators,
    mem_miscounted _ hf.properties, mem_checkPropertyOperators hf, mem_forbiddenOn]
  constructor
  · intro h
    rcases h with (⟨hr, h⟩ | ⟨hr, h⟩) | ⟨hr, ⟨⟨property, used⟩, hu, ⟨hn, rfl⟩ | ⟨key, allowed, hd, hs, h⟩⟩ |
      ⟨property, allowed, hd, h⟩⟩
    · exact .operator hr h
    · exact .property hr h
    · exact .undeclared hr (List.mem_map.mpr ⟨_, hu, rfl⟩) hn
    · exact .operation hu hd hs h
    · exact .operationCount hd h
  · intro hb
    cases hb with
    | operator hr h => exact .inl (.inl ⟨hr, h⟩)
    | property hr h => exact .inl (.inr ⟨hr, h⟩)
    | undeclared hr hp hn =>
      obtain ⟨e, hu, rfl⟩ := List.mem_map.mp hp
      exact .inr ⟨hr, .inl ⟨e, hu, .inl ⟨hn, rfl⟩⟩⟩
    | operation hu hd hs h =>
      exact .inr ⟨List.ne_nil_of_mem hd, .inl ⟨_, hu, .inr ⟨_, _, hd, hs, h⟩⟩⟩
    | operationCount hd h => exact .inr ⟨List.ne_nil_of_mem hd, .inr ⟨_, _, hd, h⟩⟩

/-! ## What comes of it -/

theorem nodup_eraseDups : ∀ (n : Nat) (ms : List String), ms.length ≤ n → ms.eraseDups.Nodup
  | _, [], _ => List.nodup_nil
  | n + 1, m :: ms, hn => by
    have hl : (ms.filter fun m' => !m' == m).length ≤ n :=
      Nat.le_trans (List.length_filter_le ..) (Nat.le_of_succ_le_succ hn)
    rw [List.eraseDups_cons, List.nodup_cons]
    refine ⟨?_, nodup_eraseDups n _ hl⟩
    simp [List.mem_eraseDups]

theorem mem_messages {inv : Inventory} (hf : inv.Fits) (r : Rules) (m : String) :
    m ∈ (Verdict.of inv (some r)).messages ↔ ∃ v, Breach r inv v ∧ v.message = m := by
  simp only [mem_messages_of, mem_violations hf]

theorem passed_iff {inv : Inventory} (hf : inv.Fits) (r : Rules) :
    (Verdict.of inv (some r)).passed = true ↔ r.Kept inv := by
  rw [r.kept_iff, passed_of_iff, List.eq_nil_iff_forall_not_mem]
  simp only [mem_violations hf]

/-- A verdict passes if the rules are kept; else its messages are the reports of
the breaches, none of them twice. -/
theorem passed_iff_kept_and_errors (t : Tree) (r : Rules) (hf : t.inventory.Fits) :
    ((onTree t (some r)).passed = true ↔ r.Kept t.inventory) ∧
    ((onTree t (some r)).failed = true →
      ∃ ms, (onTree t (some r)).errors = some ms ∧ ms.Nodup ∧
        ∀ m, m ∈ ms ↔ ∃ v, Breach r t.inventory v ∧ v.message = m) := by
  refine ⟨passed_iff hf r, fun h => ?_⟩
  refine ⟨(onTree t (some r)).messages, ?_, nodup_eraseDups _ _ (Nat.le_refl _), mem_messages hf r⟩
  have hp : (onTree t (some r)).passed = false := by simpa [failed] using h
  simp [errors, hp]

/-- `email eq null and Email ne null` on instances of an open type. -/
def twoSpellings : Tree :=
  let owner := some (.var Bound.instanceName (.entity "N.T"))
  let b : Bound := .binary .and (.binary .eq (.access .dynamic owner "email") (.const .null))
    (.binary .ne (.access .dynamic owner "Email") (.const .null))
  ⟨b.render, b, (grow 256 .root b #[]).getD #[], []⟩

def oneSpelling : Rules :=
  ((Rules.empty.withOperator "EQ" (some (.exactly 2))).withOperator "and" none).withPropertyOperator
    "EMAIL" "eq" (some (.atMost 1))

theorem errors_twoSpellings :
    twoSpellings.inventory.Fits ∧ (onTree twoSpellings (some oneSpelling)).failed = true ∧
    ¬ oneSpelling.Kept twoSpellings.inventory ∧
    (onTree twoSpellings (some oneSpelling)).errors =
      some ["Operator 'ne' is not allowed.",
        "Operator 'EQ' must be used exactly 2 times, but it is used 1 time.",
        "Operation 'and' applied to property 'email' is not allowed.",
        "Operation 'ne' applied to property 'email' is not allowed."] ∧
    ∃ ms, (onTree twoSpellings (some oneSpelling)).errors = some ms ∧ ms.Nodup ∧
      ∀ m, m ∈ ms ↔ ∃ v, Breach oneSpelling twoSpellings.inventory v ∧ v.message = m := by
  have hf : twoSpellings.inventory.Fits :=
    ⟨by decide +kernel, by decide +kernel, by decide +kernel⟩
  have hd : (onTree twoSpellings (some oneSpelling)).failed = true := by decide +kernel
  obtain ⟨hk, he⟩ := passed_iff_kept_and_errors twoSpellings oneSpelling hf
  refine ⟨hf, hd, fun h => ?_, by decide +kernel, he hd⟩
  have hp := hk.mpr h
  simp [failed, hp] at hd

end Verdict

end FilterGuard
