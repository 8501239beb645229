import FilterGuard.Proofs.References
import Mathlib.Data.List.Nodup

/-!
# Types found by name

A reference in a schema is written as the full name of the element that it picks,
and binding follows it by a lookup. The lookup takes the first element that answers
to a name, so it comes to another one exactly if that one stands in front and its
name alone reads like the full name that is looked for.
-/

namespace FilterGuard

/-- The kind and the name that a type refers to an element by. -/
def EdmType.reference? : EdmType → Option (ElementKind × String)
  | .primitive _ => none
  | .enum name => some (.enum, name)
  | .complex name => some (.complex, name)
  | .entity name => some (.entity, name)
  | .collection item => item.reference?

/-- Whether the name of an element alone, or its name behind a dot if it has no
namespace, reads like the full name of another one. -/
def Element.Hides (f e : Element) : Prop :=
  f.name = e.fullName ∨ f.space = "" ∧ "." ++ f.name = e.fullName

theorem Element.answersTo_fullName (e : Element) : e.answersTo e.fullName = true := by
  by_cases hs : e.space = "" <;> simp [answersTo, fullName, hs]

theorem Element.answersTo_iff_hides {e f : Element} (h : f.fullName ≠ e.fullName) :
    f.answersTo e.fullName = true ↔ f.Hides e := by
  rw [answersTo, Bool.or_eq_true, decide_eq_true_iff, decide_eq_true_iff, Hides]
  refine or_congr_right ⟨fun hf => ?_, fun hf => ?_⟩
  · by_cases hs : f.space = ""
    · exact ⟨hs, by simpa [hs] using hf.symm⟩
    · exact absurd (by rw [hf, fullName, if_neg hs]) h
  · simpa [hf.1] using hf.2.symm

namespace Schema

variable {elements : List Element} {s : Schema}

/-- Whether an element in front of `e` hides it. -/
def Hidden (s : Schema) (e : Element) : Prop :=
  ∃ f, [f, e].Sublist s.elements ∧ f.Hides e

/-- The element that binding takes for a reference. -/
def target? (s : Schema) (kind : ElementKind) (name : String) : Option Element :=
  match kind with
  | .enum => s.enumType name
  | .complex | .entity => s.structuredType name

/-! ## Schemas of elements -/

theorem nodup_of_firstRepeated : ∀ {names seen : List String}, firstRepeated seen names = none →
    names.Nodup ∧ ∀ name ∈ names, name ∉ seen
  | [], _, _ => ⟨List.nodup_nil, nofun⟩
  | name :: names, seen, h => by
    unfold firstRepeated at h
    by_cases hn : name ∈ seen
    · rw [if_pos hn] at h
      cases h
    · rw [if_neg hn] at h
      obtain ⟨hd, hs⟩ := nodup_of_firstRepeated h
      refine ⟨List.nodup_cons.mpr ⟨fun hm => hs name hm (by simp), hd⟩,
        List.forall_mem_cons.mpr ⟨hn, fun other hm ho => ?_⟩⟩
      exact hs other hm (List.mem_cons_of_mem _ ho)

theorem ofElements_ok (h : ofElements elements = .ok s) :
    (elements.map Element.fullName).Nodup ∧
      List.Forall₂ (fun e e' => qualifyElement elements e = .ok e') elements s.elements := by
  unfold ofElements at h
  refine of_ite h nofun fun h => ?_
  split at h
  · cases h
  · next hn =>
    obtain ⟨qualified, hq, h⟩ := bind_ok h
    cases h
    exact ⟨(nodup_of_firstRepeated hn).1, forall₂_of_mapM hq⟩

theorem fullNames_qualified {all qualified : List Element}
    (h : List.Forall₂ (fun e e' => qualifyElement all e = .ok e') elements qualified) :
    qualified.map Element.fullName = elements.map Element.fullName := by
  induction h with
  | nil => rfl
  | cons he _ ih => rw [List.map_cons, List.map_cons, fullName_of_qualifyElement he, ih]

theorem nodup_fullNames (h : ofElements elements = .ok s) : (s.elements.map Element.fullName).Nodup := by
  obtain ⟨hn, hq⟩ := ofElements_ok h
  rwa [fullNames_qualified hq]

/-! ## Lookups of full names -/

theorem mem_front_of_sublist {α : Type} {front back : List α} {x y : α} (hn : (front ++ y :: back).Nodup)
    (h : [x, y].Sublist (front ++ y :: back)) : x ∈ front := by
  rw [List.nodup_append, List.nodup_cons] at hn
  obtain ⟨-, ⟨hb, -⟩, -⟩ := hn
  induction front with
  | nil =>
    -- Nothing is in front of `y`, so `y` would have to come once more.
    cases h with
    | cons _ h => exact absurd (h.subset (by simp)) hb
    | cons_cons _ h => exact absurd (h.subset (by simp)) hb
  | cons z front ih =>
    cases h with
    | cons _ h => exact List.mem_cons_of_mem z (ih h)
    | cons_cons _ h => exact List.mem_cons_self

theorem fullName_ne_of_sublist (hn : (s.elements.map Element.fullName).Nodup) {e f : Element}
    (h : [f, e].Sublist s.elements) : f.fullName ≠ e.fullName := by
  have hs := (h.map Element.fullName).nodup hn
  simpa using hs

/-- The lookup of a full name comes back with its element unless another one hides it. -/
theorem findType_eq_iff (hn : (s.elements.map Element.fullName).Nodup) {e : Element} (he : e ∈ s.elements) :
    s.findType e.fullName = some e ↔ ¬ s.Hidden e := by
  unfold findType
  rw [List.find?_eq_some_iff_append]
  constructor
  · intro h hh
    obtain ⟨-, front, back, hl, hf⟩ := h
    obtain ⟨f, hs, hf'⟩ := hh
    have ha := (Element.answersTo_iff_hides (fullName_ne_of_sublist hn hs)).mpr hf'
    have hd : s.elements.Nodup := .of_map _ hn
    rw [hl] at hs hd
    exact absurd ha (by simpa using hf f (mem_front_of_sublist hd hs))
  · intro hh
    obtain ⟨front, back, hl⟩ := List.append_of_mem he
    refine ⟨e.answersTo_fullName, front, back, hl, fun f hf => ?_⟩
    have hs : [f, e].Sublist s.elements := by
      rw [hl]
      exact (List.singleton_sublist.mpr hf).append (List.singleton_sublist.mpr List.mem_cons_self)
    have ha : ¬ f.answersTo e.fullName = true := fun ha =>
      hh ⟨f, hs, (Element.answersTo_iff_hides (fullName_ne_of_sublist hn hs)).mp ha⟩
    simpa using ha

/-- Nothing is hidden if no name has a dot and all elements are in namespaces, or none is. -/
theorem not_hidden_of_undotted (hn : (s.elements.map Element.fullName).Nodup)
    (hd : ∀ e ∈ s.elements, '.' ∉ e.name.toList)
    (hs : (∀ e ∈ s.elements, e.space ≠ "") ∨ ∀ e ∈ s.elements, e.space = "") {e : Element}
    (he : e ∈ s.elements) : ¬ s.Hidden e := by
  intro hh
  obtain ⟨f, hf, hf'⟩ := hh
  have hm : f ∈ s.elements := hf.subset (by simp)
  have hdot : '.' ∉ f.name.toList := hd f hm
  rcases hs with hs | hs
  · have hfull : e.fullName = e.space ++ "." ++ e.name := if_neg (hs e he)
    rcases hf' with hf' | hf'
    · exact hdot (by simp [hf', hfull])
    · exact hs f hm hf'.1
  · have hfull : e.fullName = e.name := if_pos (hs e he)
    rcases hf' with hf' | hf'
    · exact fullName_ne_of_sublist hn hf (by rw [Element.fullName, if_pos (hs f hm), hf'])
    · exact hd e he (by simp [← hfull, ← hf'.2])

/-! ## References -/

theorem resolve_ok {kind : ElementKind} {name full : String} (h : resolve elements kind name = .ok full) :
    ∃ d, referent elements kind name = some d ∧ full = d.fullName := by
  unfold resolve at h
  split at h
  · next d hd =>
    cases h
    exact ⟨d, hd, rfl⟩
  · cases h

/-- A reference is written as the full name of the element that it picks. -/
theorem reference?_qualify : ∀ {type type' : EdmType}, qualify elements type = .ok type' →
    ∀ kind name, type.reference? = some (kind, name) →
      ∃ d, referent elements kind name = some d ∧ type'.reference? = some (kind, d.fullName)
  | .primitive _, _, _, _, _, hr => by cases hr
  | .enum _, _, h, _, _, hr | .complex _, _, h, _, _, hr | .entity _, _, h, _, _, hr => by
    cases hr
    obtain ⟨full, hf, rfl⟩ := map_ok h
    obtain ⟨d, hd, rfl⟩ := resolve_ok hf
    exact ⟨d, hd, rfl⟩
  | .collection _, _, h, kind, name, hr => by
    obtain ⟨item, hi, rfl⟩ := map_ok h
    exact reference?_qualify hi kind name hr

theorem target?_eq_iff {kind : ElementKind} {name : String} {e : Element} (he : e.kind = kind) :
    s.target? kind name = some e ↔ s.findType name = some e := by
  subst he
  unfold target?
  split <;> next hk => simp [enumType, structuredType, Option.filter_eq_some_iff, Element.isStructured, hk]

/-- The reference of `type` was written into `type'` as the full name of the element that it
picks among those given, and binding finds that one under this name unless it is hidden. -/
def Follows (s : Schema) (elements : List Element) (type type' : EdmType) : Prop :=
  ∀ kind name, type.reference? = some (kind, name) →
    ∃ d d', (d, d') ∈ elements.zip s.elements ∧ referent elements kind name = some d ∧
      type'.reference? = some (kind, d'.fullName) ∧ (s.target? kind d'.fullName = some d' ↔ ¬ s.Hidden d')

theorem follows_of_qualify (h : ofElements elements = .ok s) {type type' : EdmType}
    (hq : qualify elements type = .ok type') : s.Follows elements type type' := by
  intro kind name hr
  obtain ⟨d, hd, hr'⟩ := reference?_qualify hq kind name hr
  obtain ⟨hm, hk⟩ := referent_spec hd
  obtain ⟨d', hz, hqd⟩ := exists_zip_of_mem (ofElements_ok h).2 hm
  refine ⟨d, d', hz, hd, fullName_of_qualifyElement hqd ▸ hr', ?_⟩
  rw [target?_eq_iff ((kind_of_qualifyElement hqd).trans hk)]
  exact findType_eq_iff (nodup_fullNames h) (List.of_mem_zip hz).2

theorem types_of_qualifyElement {e e' : Element} (h : qualifyElement elements e = .ok e') :
    List.Forall₂ (fun p p' => qualify elements p.type = .ok p'.type) e.properties e'.properties := by
  obtain ⟨properties, hp, h⟩ := bind_ok h
  cases h
  refine (forall₂_of_mapM hp).imp fun p p' hq => ?_
  unfold qualifyProperty at hq
  split at hq <;> cases hq
  assumption

/-- A lookup of a full name comes back with the element of that name, and every reference
leads to the element that it picked, exactly if none in front hides that element. -/
theorem lookup_iff_not_hidden (h : ofElements elements = .ok s) :
    (∀ e ∈ s.elements, s.findType e.fullName = some e ↔ ¬ s.Hidden e) ∧
    List.Forall₂
      (fun e e' => List.Forall₂ (fun p p' => s.Follows elements p.type p'.type) e.properties e'.properties)
      elements s.elements := by
  refine ⟨fun e he => findType_eq_iff (nodup_fullNames h) he, ?_⟩
  refine (ofElements_ok h).2.imp fun e e' hq => ?_
  exact (types_of_qualifyElement hq).imp fun p p' hp => follows_of_qualify h hp

/-- References by names alone and by full names, all in one namespace. -/
def shop : List Element :=
  [⟨"Shop", "Tier", .enum, [], [], ["Basic", "Gold"], false⟩,
    ⟨"Shop", "Address", .complex, [], [⟨"city", .primitive .string⟩], [], false⟩,
    ⟨"Shop", "Customer", .entity, ["id"],
      [⟨"id", .primitive .int32⟩, ⟨"tier", .enum "Tier"⟩,
        ⟨"addresses", .collection (.complex "Shop.Address")⟩, ⟨"referrer", .entity "Customer"⟩], [], false⟩]

theorem lookup_shop : ∃ s, ofElements shop = .ok s ∧ (∀ e ∈ s.elements, s.findType e.fullName = some e) ∧
    List.Forall₂
      (fun e e' => List.Forall₂ (fun p p' => s.Follows shop p.type p'.type) e.properties e'.properties)
      shop s.elements := by
  refine ⟨_, rfl, fun e he => ?_, (lookup_iff_not_hidden rfl).2⟩
  have hf := (lookup_iff_not_hidden (show ofElements shop = _ from rfl)).1 e he
  exact hf.mpr (not_hidden_of_undotted (by decide) (by decide) (.inl (by decide)) he)

/-- The second element has no namespace, so its full name is also the first one's name. -/
def overtaken : List Element :=
  [⟨"Old", "Address", .complex, [], [⟨"street", .primitive .string⟩], [], false⟩,
    ⟨"", "Address", .complex, [], [⟨"city", .primitive .string⟩], [], false⟩,
    ⟨"", "Customer", .entity, ["id"],
      [⟨"id", .primitive .int32⟩, ⟨"address", .complex "Address"⟩], [], false⟩]

/-- The lookup comes to the first element, the reference has picked the second one. -/
theorem lookup_overtaken : ∃ s, ofElements overtaken = .ok s ∧
    (∃ e ∈ s.elements, s.findType e.fullName ≠ some e) ∧
    (referent overtaken .complex "Address").map Element.fullName = some "Address" ∧
    (s.target? .complex "Address").map Element.fullName = some "Old.Address" :=
  ⟨_, rfl, ⟨⟨"", "Address", .complex, [], [⟨"city", .primitive .string⟩], [], false⟩, by decide, by decide⟩,
    rfl, rfl⟩

end Schema

end FilterGuard
