import FilterGuard.Proofs.Documents
import FilterGuard.Proofs.Fragments
import FilterGuard.Proofs.Notation
import FilterGuard.Proofs.Steps
import FilterGuard.Filter

/-!
# Rule texts and rule documents

The same rules can be given as a rule text and as a document. They come out in another
order, and where the text has a count of zero for no bounds the document may have null.
A verdict depends on neither.
-/

namespace FilterGuard
open Text

/-! ## Maps with the same keys -/

/-- Maps with the same keys in the same spelling, and related values under them. -/
structure NameMap.Alike {V : Type} (R : V → V → Prop) (m n : NameMap V) : Prop where
  left : ∀ key v, (key, v) ∈ m.entries → ∃ w, (key, w) ∈ n.entries ∧ R v w
  right : ∀ key w, (key, w) ∈ n.entries → ∃ v, (key, v) ∈ m.entries ∧ R v w

namespace NameMap.Alike

variable {V : Type} {R : V → V → Prop} {m n : NameMap V}

theorem symm (hR : ∀ {v w}, R v w → R w v) (h : m.Alike R n) : n.Alike R m where
  left key v hv := (h.right key v hv).imp fun _ hw => ⟨hw.1, hR hw.2⟩
  right key w hw := (h.left key w hw).imp fun _ hv => ⟨hv.1, hR hv.2⟩

theorem rel_get? (h : m.Alike R n) (name : String) : Option.Rel R (m.get? name) (n.get? name) := by
  cases hm : m.get? name with
  | none =>
    cases hn : n.get? name with
    | none => exact .none
    | some w =>
      obtain ⟨key, he, hs⟩ := get?_eq_some_iff.mp hn
      obtain ⟨v, hv, -⟩ := h.right key w he
      rw [get?_eq_some_iff.mpr ⟨key, hv, hs⟩] at hm
      cases hm
  | some v =>
    obtain ⟨key, he, hs⟩ := get?_eq_some_iff.mp hm
    obtain ⟨w, hw, hvw⟩ := h.left key v he
    rw [get?_eq_some_iff.mpr ⟨key, hw, hs⟩]
    exact .some hvw

theorem contains_eq (h : m.Alike R n) (name : String) : m.contains name = n.contains name :=
  contains_eq_of_rel (h.rel_get? name)

end NameMap.Alike

/-! ## Verdicts -/

/-- The same bounds, whether or not it is said that there are none. -/
def SameBounds (c d : Option Count) : Prop :=
  c.getD .free = d.getD .free

/-- Rules that differ in order only, and in whether no bounds are said. -/
structure Rules.Alike (r s : Rules) : Prop where
  operators : r.operators.Alike SameBounds s.operators
  properties : r.properties.Alike SameBounds s.properties
  propertyOperators : r.propertyOperators.Alike (Option.Rel (NameMap.Alike SameBounds)) s.propertyOperators

theorem SameBounds.symm {c d : Option Count} (h : SameBounds c d) : SameBounds d c := Eq.symm h

theorem Rules.Alike.symm {r s : Rules} (h : r.Alike s) : s.Alike r where
  operators := h.operators.symm SameBounds.symm
  properties := h.properties.symm SameBounds.symm
  propertyOperators := h.propertyOperators.symm fun hr => by
    cases hr with
    | some hr => exact .some (hr.symm SameBounds.symm)
    | none => exact .none

namespace Verdict

theorem countViolation_free (subject : Subject) (name : String) (used : UInt32) :
    countViolation subject name .free used = none := by
  simp [countViolation, Count.free]

theorem bind_countViolation (subject : Subject) (name : String) (count : Option Count) (used : UInt32) :
    (count.bind fun c => countViolation subject name c used) = countViolation subject name (count.getD .free) used := by
  cases count with
  | none => exact (countViolation_free subject name used).symm
  | some c => rfl

variable {m n : Allowed} {r s : Rules}

/-- What is forbidden depends only on which names are listed. -/
theorem forbidden_congr (h : ∀ name, m.contains name = n.contains name) (subject : Subject) (used : List String) :
    forbidden subject used m = forbidden subject used n := by
  unfold forbidden
  simp only [h]

theorem forbiddenOn_congr {R : Allowed → Allowed → Prop}
    (hR : ∀ {m n}, R m n → ∀ name, m.contains name = n.contains name) {m n : NameMap (Option Allowed)}
    {property : String} (h : Option.Rel (Option.Rel R) (m.get? property) (n.get? property)) (used : List String) :
    forbiddenOn m property used = forbiddenOn n property used := by
  unfold forbiddenOn
  generalize m.get? property = found, n.get? property = found' at h
  cases h with
  | none => rfl
  | some h =>
    cases h with
    | none => rfl
    | some h => exact forbidden_congr (hR h) _ _

theorem mem_miscounted_alike (h : m.Alike SameBounds n) {subject : Subject} {used : List String} {v : Violation}
    (hv : v ∈ miscounted subject used m) : v ∈ miscounted subject used n := by
  unfold miscounted at hv ⊢
  obtain ⟨⟨key, c⟩, he, hc⟩ := List.mem_filterMap.mp hv
  obtain ⟨d, hd, hcd⟩ := h.left key c he
  refine List.mem_filterMap.mpr ⟨(key, d), hd, ?_⟩
  rw [bind_countViolation] at hc ⊢
  rwa [← show c.getD .free = d.getD .free from hcd]

theorem mem_checked_alike (h : m.Alike SameBounds n) {subject : Subject} {used : List String} {v : Violation}
    (hv : v ∈ if m.isEmpty then [] else forbidden subject used m ++ miscounted subject used m) :
    v ∈ if n.isEmpty then [] else forbidden subject used n ++ miscounted subject used n := by
  rw [← NameMap.isEmpty_congr h.contains_eq, ← forbidden_congr h.contains_eq]
  split
  · next he => rwa [if_pos he] at hv
  · next he =>
    rw [if_neg he] at hv
    exact List.mem_append.mpr ((List.mem_append.mp hv).imp_right (mem_miscounted_alike h))

theorem mem_violations_alike (h : r.Alike s) {inv : Inventory} {v : Violation} (hv : v ∈ violations inv r) :
    v ∈ violations inv s := by
  unfold violations checkOperators checkProperties checkPropertyOperators at hv ⊢
  rw [List.mem_append, List.mem_append] at hv ⊢
  refine hv.imp (.imp (mem_checked_alike h.operators) (mem_checked_alike h.properties)) fun hv => ?_
  rw [← NameMap.isEmpty_congr h.propertyOperators.contains_eq]
  split
  · next he => rwa [if_pos he] at hv
  · next he =>
    rw [if_neg he, List.mem_append] at hv
    have hf := fun property => forbiddenOn_congr NameMap.Alike.contains_eq (h.propertyOperators.rel_get? property)
    simp only [← hf]
    refine List.mem_append.mpr (hv.imp_right fun hv => ?_)
    obtain ⟨⟨key, listed⟩, hm, hv⟩ := List.mem_flatMap.mp hv
    obtain ⟨listed', hm', hr⟩ := h.propertyOperators.left key listed hm
    refine List.mem_flatMap.mpr ⟨(key, listed'), hm', ?_⟩
    cases hr with
    | none => exact hv
    | some hr => exact mem_miscounted_alike hr hv

theorem mem_violations_iff (h : r.Alike s) (inv : Inventory) (v : Violation) :
    v ∈ violations inv r ↔ v ∈ violations inv s :=
  ⟨mem_violations_alike h, mem_violations_alike h.symm⟩

theorem mem_messages_alike (h : r.Alike s) (inv : Inventory) (m : String) :
    m ∈ (Verdict.of inv (some r)).messages ↔ m ∈ (Verdict.of inv (some s)).messages := by
  simp only [mem_messages_of, mem_violations_iff h]

theorem passed_alike (h : r.Alike s) (inv : Inventory) :
    (Verdict.of inv (some r)).passed = (Verdict.of inv (some s)).passed := by
  refine Bool.eq_iff_iff.mpr ?_
  rw [passed_of_iff, passed_of_iff, List.eq_nil_iff_forall_not_mem, List.eq_nil_iff_forall_not_mem]
  simp only [mem_violations_iff h]

end Verdict

/-! ## Documents -/

namespace Json

/-- What is written by `g` is read by `f` as something related. -/
def Restores {α : Type} (R : α → α → Prop) (f : Json → Option α) (g : α → Json) : Prop :=
  ∀ a, ∃ b, f (g a).sorted = some b ∧ R a b

theorem Restores.nullable {α : Type} {R : α → α → Prop} {f : Json → Option α} {g : α → Json} (h : Restores R f g)
    (hg : ∀ a, (g a).sorted ≠ .null) : Restores (Option.Rel R) (Json.nullable f) fun o => o.elim .null g := by
  intro o
  cases o with
  | none => exact ⟨none, by simp [sorted, Json.nullable], .none⟩
  | some a =>
    obtain ⟨b, hb, hab⟩ := h a
    refine ⟨some b, ?_, .some hab⟩
    show Json.nullable f (g a).sorted = some (some b)
    rw [nullable_of_ne_null f (hg a), hb, Option.map_some]

theorem Restores.toJson {V : Type} {R : V → V → Prop} {f : Json → Option V} {g : V → Json} (h : Restores R f g) :
    Restores (NameMap.Alike R) (NameMap.ofJson f) (NameMap.toJson g) := by
  intro m
  obtain ⟨n, hn, -, hmem⟩ := m.exists_ofJson_toJson fun a => (h a).imp fun _ hb => hb.1
  refine ⟨n, hn, fun key a ha => ?_, fun key b hb => ?_⟩
  · obtain ⟨b, hb, hab⟩ := h a
    exact ⟨b, (hmem key b).mpr ⟨a, ha, hb⟩, hab⟩
  · obtain ⟨a, ha, hb⟩ := (hmem key b).mp hb
    obtain ⟨b', hb', hab⟩ := h a
    cases hb.symm.trans hb'
    exact ⟨a, ha, hab⟩

end Json

namespace Rules

open NameMap Fragment

/-- No operator comes twice, no property, and no operator in the list of a property,
whatever their case. -/
structure Distinct (fs : List Fragment) : Prop where
  operators : ((operatorRules fs).map fun u => fold u.1).Nodup
  properties : ((propertyRules fs).map fun u => fold u.1).Nodup
  listed : ∀ f ∈ fs, (f.operators.map fold).Nodup

/-- Whether counts are written as documents have them: an object, or null for no bounds. -/
def WritesBounds (write : Count → Json) : Prop :=
  ∀ c, write c = c.toJson ∨ (c = .free ∧ write c = .null)

def boundsObject (write : Count → Json) (us : List (String × Count)) : Json :=
  .object (us.map fun u => (u.1, write u.2))

/-- The document that says what the fragments say. -/
def documentOf (write : Count → Json) (fs : List Fragment) : Json :=
  .object (documentFields (boundsObject write (operatorRules fs)) (boundsObject write (propertyRules fs))
    (.object ((listedRules fs).map fun u => (u.1, boundsObject write u.2))))

section

variable {write : Count → Json} (hw : WritesBounds write)

include hw in
theorem restores_bounds : Json.Restores SameBounds (Json.nullable Count.ofJson) fun c => write (c.getD .free) := by
  intro c
  rcases hw (c.getD .free) with h | ⟨hf, h⟩
  · refine ⟨some (c.getD .free), ?_, rfl⟩
    simp only [h]
    rw [Json.nullable_of_ne_null _ (by rw [Count.sorted_toJson]; nofun), Count.ofJson_toJson, Option.map_some]
  · refine ⟨none, ?_, hf⟩
    simp only [h]
    rfl

include hw in
theorem plain_bounds {depth : Nat} (h : depth + 1 < Json.depthLimit) (us : List (String × Count)) :
    (boundsObject write us).Plain depth := by
  rw [boundsObject, Json.Plain, Json.plainFields_iff]
  refine ⟨by omega, fun f hf => ?_⟩
  obtain ⟨u, -, rfl⟩ := List.mem_map.mp hf
  rcases hw u.2 with hu | ⟨-, hu⟩
  · rw [hu]
    exact Count.plain_toJson _ h
  · rw [hu]
    simp [Json.Plain]

theorem toJson_of_entries {m : Allowed} {us : List (String × Count)} (h : m.entries = us.map fun u => (u.1, some u.2)) :
    m.toJson (fun c => write (c.getD .free)) = boundsObject write us := by
  rw [NameMap.toJson, h, List.map_map]
  rfl

theorem nodup_listedRules {fs : List Fragment} (h : Distinct fs) :
    ((listedRules fs).map fun u => fold u.1).Nodup := by
  have hsub : ((listedRules fs).map fun u => fold u.1).Sublist ((propertyRules fs).map fun u => fold u.1) := by
    have hf : (fs.filter fun f => f.kind = .property ∧ f.operators ≠ []) =
        (fs.filter (·.kind = .property)).filter fun f => f.operators ≠ [] := by
      simp [List.filter_filter, Bool.and_comm]
    rw [listedRules, propertyRules, List.map_map, List.map_map, hf]
    exact List.filter_sublist.map _
  exact h.properties.sublist hsub

theorem nodup_of_listedRules {fs : List Fragment} (h : Distinct fs) {u : String × List (String × Count)}
    (hu : u ∈ listedRules fs) : (u.2.map fun v => fold v.1).Nodup := by
  obtain ⟨f, hf, rfl⟩ := List.mem_map.mp hu
  have hn := h.listed f (List.mem_filter.mp hf).1
  rwa [List.map_map]

theorem fresh_of_distinct {fs : List Fragment} (h : Distinct fs) : empty.Fresh fs := by
  have hn := h.operators
  simpa [Fresh, empty, keys, NameMap.empty, Function.comp_def] using hn

theorem documentOf_eq {fs : List Fragment} (h : Distinct fs) :
    documentOf write fs = .object (documentFields
      ((empty.filled fs).operators.toJson fun c => write (c.getD .free))
      ((empty.filled fs).properties.toJson fun c => write (c.getD .free))
      ((empty.filled fs).propertyOperators.toJson fun m =>
        m.elim .null fun m => m.toJson fun c => write (c.getD .free))) := by
  have hops : (empty.filled fs).operators.toJson (fun c => write (c.getD .free)) =
      boundsObject write (operatorRules fs) := toJson_of_entries (entries_fill_empty _ h.operators)
  have hprops : (empty.filled fs).properties.toJson (fun c => write (c.getD .free)) =
      boundsObject write (propertyRules fs) := toJson_of_entries (entries_fill_empty _ h.properties)
  have hpops : (empty.filled fs).propertyOperators.toJson (fun m =>
      m.elim .null fun m => m.toJson fun c => write (c.getD .free)) =
      .object ((listedRules fs).map fun u => (u.1, boundsObject write u.2)) := by
    have he : (empty.filled fs).propertyOperators.entries = (listedRules fs).map fun u => (u.1, listing u.2 none) :=
      entries_fill_empty listing (nodup_listedRules h)
    rw [NameMap.toJson, he, List.map_map]
    refine congrArg Json.object (List.map_congr_left fun u hu => ?_)
    exact congrArg (Prod.mk u.1) (toJson_of_entries (entries_fill_empty widen (nodup_of_listedRules h hu)))
  rw [documentOf, hops, hprops, hpops]

include hw in
theorem plain_documentOf (fs : List Fragment) : (documentOf write fs).Plain 0 := by
  have hlimit : Json.depthLimit = 127 := rfl
  refine plain_fields (plain_bounds hw (by omega) _) (plain_bounds hw (by omega) _) ?_
  rw [Json.Plain, Json.plainFields_iff]
  refine ⟨by omega, fun f hf => ?_⟩
  obtain ⟨u, -, rfl⟩ := List.mem_map.mp hf
  exact plain_bounds hw (by omega) u.2

include hw in
/-- The document is read as rules like those of the text. -/
theorem exists_alike_ofJson {fs : List Fragment} (h : Distinct fs) :
    ∃ s, ofJson (documentOf write fs) = some s ∧ (empty.filled fs).Alike s := by
  have hnull := NameMap.sorted_toJson_ne_null fun c : Option Count => write (c.getD .free)
  have hcounts := (restores_bounds hw).toJson
  obtain ⟨ops, hops, ho⟩ := hcounts (empty.filled fs).operators
  obtain ⟨props, hprops, hp⟩ := hcounts (empty.filled fs).properties
  obtain ⟨pops, hpops, hl⟩ := (hcounts.nullable hnull).toJson (empty.filled fs).propertyOperators
  have hplain := plain_documentOf hw fs
  rw [documentOf_eq h] at hplain ⊢
  exact ⟨_, ofJson_fields hplain (hnull _) (hnull _) (NameMap.sorted_toJson_ne_null _ _) hops hprops hpops, ho, hp, hl⟩

end

/-- Whatever text the fragments have been read from, a document that says the same gives
the same verdicts. -/
theorem verdict_of_readAll {text : String} {fs : List Fragment} (hd : ¬StartsDocument text)
    (hr : readAll text.toList = .ok fs) (h : Distinct fs) {write : Count → Json} (hw : WritesBounds write) :
    ∃ r s, load text = .ok r ∧ load (documentOf write fs).render = .ok s ∧
      ∀ t : Tree, (Verdict.onTree t (some r)).passed = (Verdict.onTree t (some s)).passed ∧
        ∀ m, m ∈ (Verdict.onTree t (some r)).messages ↔ m ∈ (Verdict.onTree t (some s)).messages := by
  obtain ⟨s, hs, halike⟩ := exists_alike_ofJson hw h
  have htext : load text = .ok (empty.filled fs) := by
    rw [load_eq_ofText hd, ofText_of_readAll ((readAll_trim _).trans hr), ofFragments_ok (fresh_of_distinct h)]
  have hrender : (documentOf write fs).render.toList = (documentOf write fs).write := String.toList_ofList
  obtain ⟨cs, hcs⟩ := Json.exists_write_object _
  refine ⟨_, s, htext, load_braces (hrender.trans hcs) ?_, fun t => ⟨?_, ?_⟩⟩
  · rw [hrender, Json.readChars_write (plain_documentOf hw fs)]
    exact hs
  · exact Verdict.passed_alike halike t.inventory
  · exact Verdict.mem_messages_alike halike t.inventory

/-- With a mark in front of each of its fragments a text does not start like a document. -/
theorem not_startsDocument {fs : List Fragment} {texts : List (List Char)} (h : Spaced WritesFull fs texts) :
    ¬StartsDocument (String.ofList (joinFields '|' texts)) := by
  have hstart : ∀ text ∈ texts, (trim text).head? = none ∨
      ∃ kind, ∃ letter ∈ letters kind, (trim text).head? = some letter := by
    induction h with
    | nil => nofun
    | blank hb _ ih => exact List.forall_mem_cons.mpr ⟨.inl (by rw [trim_of_blank hb]; rfl), ih⟩
    | item hw _ ih => exact List.forall_mem_cons.mpr ⟨.inr ⟨_, hw.head?_eq⟩, ih⟩
  have hbar : isBlank '|' = false := by decide
  unfold StartsDocument
  rw [String.toList_ofList]
  rcases head?_trim_joinFields hbar texts with h | h | ⟨text, ht, h⟩
  · simp [h]
  · simp [h]
  · rcases hstart text ht with hn | ⟨kind, letter, hl, hn⟩
    · simp [h, hn]
    · rw [h, hn]
      cases kind with
      | operator =>
        obtain rfl | rfl : letter = 'o' ∨ letter = 'O' := by simpa [letters] using hl
        all_goals decide
      | property =>
        obtain rfl | rfl : letter = 'p' ∨ letter = 'P' := by simpa [letters] using hl
        all_goals decide

/-- A rule text and the document that says the same give the same verdict on every tree. -/
theorem verdict_text_document {fs : List Fragment} {texts : List (List Char)} (hp : ∀ f ∈ fs, f.Plain)
    (h : Distinct fs) (ht : Spaced WritesFull fs texts) {write : Count → Json} (hw : WritesBounds write) :
    ∃ r s, load (String.ofList (joinFields '|' texts)) = .ok r ∧ load (documentOf write fs).render = .ok s ∧
      ∀ t : Tree, (Verdict.onTree t (some r)).passed = (Verdict.onTree t (some s)).passed ∧
        ∀ m, m ∈ (Verdict.onTree t (some r)).messages ↔ m ∈ (Verdict.onTree t (some s)).messages := by
  have hr : readAll (joinFields '|' texts) = .ok fs := by
    refine readAll_of_read (fun f hf text ht => ?_) ht
    exact ⟨ht.writes.read_eq (hp f hf), ht.writes.no_bar (hp f hf)⟩
  rw [← String.toList_ofList (l := joinFields '|' texts)] at hr
  exact verdict_of_readAll (not_startsDocument ht) hr h hw

def boundsJson (c : Count) : Json :=
  if c.isFree then .null else c.toJson

theorem writes_boundsJson : WritesBounds boundsJson := by
  rintro ⟨least, most⟩
  unfold boundsJson
  split
  · next h =>
    refine .inr ⟨?_, rfl⟩
    simp only [Count.isFree, Bool.and_eq_true, decide_eq_true_eq] at h
    rw [h.1, h.2]
    rfl
  · exact .inl rfl

theorem verdict_text_document_name :
    ∃ r s, load "o:eq:1,2|p:name[eq,ne]:,2|p:id:" = .ok r ∧
      load ("\x7b\"operators\":\x7b\"eq\":\x7b\"min\":1,\"max\":2\x7d\x7d,\"properties\":\x7b\"name\":" ++
        "\x7b\"min\":0,\"max\":2\x7d,\"id\":null\x7d,\"propertyOperators\":\x7b\"name\":\x7b" ++
        "\"eq\":\x7b\"min\":0,\"max\":2\x7d,\"ne\":\x7b\"min\":0,\"max\":2\x7d\x7d\x7d\x7d") = .ok s ∧
      ∀ t : Tree, (Verdict.onTree t (some r)).passed = (Verdict.onTree t (some s)).passed ∧
        ∀ m, m ∈ (Verdict.onTree t (some r)).messages ↔ m ∈ (Verdict.onTree t (some s)).messages := by
  have hpad : ∀ cs : List Char, Padded cs cs := fun cs => ⟨[], [], rfl, rfl, by simp⟩
  have hbound : ∀ {n : UInt32} (ds : List Char), (∀ c ∈ ds, c.isDigit = true) → decimalValue ds = n.toNat →
      WritesBound n ds := fun ds hd hv => ⟨ds, hd, hv, hpad ds⟩
  have heq : WritesFull ⟨.operator, "eq", ⟨1, 2⟩, []⟩
      (joinFields ':' [['o'], "eq".toList, joinFields ',' [['1'], ['2']]]) := by
    refine ⟨_, _, _, ⟨[], 'o', [], rfl, by decide, nofun, rfl⟩, .bare rfl (hpad _), .both ?_ ?_, rfl⟩
    · exact hbound _ (by simp) rfl
    · exact hbound _ (by simp) rfl
  have hname : WritesFull ⟨.property, "name", ⟨0, 2⟩, ["eq", "ne"]⟩
      (joinFields ':' [['p'], "name".toList ++ '[' :: joinFields ',' ["eq".toList, "ne".toList] ++ [']'],
        joinFields ',' [[], ['2']]]) := by
    refine ⟨_, _, _, ⟨[], 'p', [], rfl, by decide, nofun, rfl⟩, .listed rfl (hpad _) ?_ rfl, .both ?_ ?_, rfl⟩
    · exact .item (hpad _) (.item (hpad _) .nil)
    · exact hbound _ (by simp) rfl
    · exact hbound _ (by simp) rfl
  have hid : WritesFull ⟨.property, "id", .free, []⟩ (joinFields ':' [['p'], "id".toList, []]) := by
    refine ⟨_, _, _, ⟨[], 'p', [], rfl, by decide, nofun, rfl⟩, .bare rfl (hpad _), .one rfl ?_, rfl⟩
    exact hbound _ (by simp) rfl
  have hv := verdict_text_document (by decide) ⟨by decide, by decide, by decide⟩
    (.item heq (.item hname (.item hid .nil))) writes_boundsJson
  have hj : (documentOf boundsJson [⟨.operator, "eq", ⟨1, 2⟩, []⟩, ⟨.property, "name", ⟨0, 2⟩, ["eq", "ne"]⟩,
      ⟨.property, "id", .free, []⟩]).render =
      "\x7b\"operators\":\x7b\"eq\":\x7b\"min\":1,\"max\":2\x7d\x7d,\"properties\":\x7b\"name\":" ++
        "\x7b\"min\":0,\"max\":2\x7d,\"id\":null\x7d,\"propertyOperators\":\x7b\"name\":\x7b" ++
        "\"eq\":\x7b\"min\":0,\"max\":2\x7d,\"ne\":\x7b\"min\":0,\"max\":2\x7d\x7d\x7d\x7d" := by
    decide +kernel
  rwa [hj] at hv

end Rules

end FilterGuard
