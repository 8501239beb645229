import FilterGuard.Proofs.Steps
import FilterGuard.Schema

/-!
# References in schemas

A schema writes full names into the types of its properties. If no name has a dot
and no namespace is empty, a full name leads to the element that it names and to
no other, so a lookup by an enumeration's name comes back with that name.
-/

namespace FilterGuard

/-- An element with a namespace and without a dot in its name. -/
structure Element.Plain (e : Element) : Prop where
  space : e.space ≠ ""
  name : '.' ∉ e.name.toList

theorem Element.Plain.fullName_eq {e : Element} (h : e.Plain) : e.fullName = e.space ++ "." ++ e.name :=
  if_neg h.space

theorem Element.fullName_of_answersTo {e f : Element} (he : e.Plain) (hf : f.Plain)
    (h : f.answersTo e.fullName = true) : f.fullName = e.fullName := by
  rw [Element.answersTo, Bool.or_eq_true, decide_eq_true_iff, decide_eq_true_iff] at h
  obtain h | h := h
  · -- A full name has a dot, a name alone has none.
    refine absurd ?_ hf.name
    simp [h, he.fullName_eq]
  · rw [hf.fullName_eq, h]

namespace Schema

variable {s : Schema}

/-- A lookup of the enumerations in a type comes back with their names. -/
def Knows (s : Schema) : EdmType → Prop
  | .enum name => ∀ e, s.enumType name = some e → e.fullName = name
  | .collection item => s.Knows item
  | _ => True

theorem mem_of_findType {name : String} {e : Element} (h : s.findType name = some e) :
    e ∈ s.elements ∧ e.answersTo name = true := by
  unfold findType at h
  have ha := List.find?_some h
  exact ⟨List.mem_of_find?_eq_some h, ha⟩

theorem mem_of_enumType {name : String} {e : Element} (h : s.enumType name = some e) :
    e ∈ s.elements ∧ e.answersTo name = true :=
  mem_of_findType (Option.filter_eq_some_iff.mp h).1

theorem kind_of_enumType {name : String} {e : Element} (h : s.enumType name = some e) : e.kind = .enum :=
  of_decide_eq_true (Option.filter_eq_some_iff.mp h).2

theorem mem_of_structuredType {name : String} {e : Element} (h : s.structuredType name = some e) :
    e ∈ s.elements :=
  (mem_of_findType (Option.filter_eq_some_iff.mp h).1).1

theorem knows_fullName (hp : ∀ e ∈ s.elements, e.Plain) {e : Element} (he : e ∈ s.elements) :
    s.Knows (.enum e.fullName) := by
  intro f hf
  obtain ⟨hm, ha⟩ := mem_of_enumType hf
  exact Element.fullName_of_answersTo (hp e he) (hp f hm) ha

theorem fullName_of_qualifyElement {elements : List Element} {e e' : Element}
    (h : qualifyElement elements e = .ok e') : e'.fullName = e.fullName := by
  obtain ⟨_, -, h⟩ := bind_ok h
  cases h
  rfl

theorem kind_of_qualifyElement {elements : List Element} {e e' : Element}
    (h : qualifyElement elements e = .ok e') : e'.kind = e.kind := by
  obtain ⟨_, -, h⟩ := bind_ok h
  cases h
  rfl

theorem referent_spec {elements : List Element} {kind : ElementKind} {name : String} {d : Element}
    (h : referent elements kind name = some d) :
    d ∈ elements ∧ d.kind = kind := by
  unfold referent at h
  split at h
  · next hf =>
    cases h
    have hk := List.find?_some hf
    simp only [Bool.and_eq_true, decide_eq_true_eq] at hk
    exact ⟨List.mem_of_find?_eq_some hf, hk.1⟩
  · have hk := List.find?_some h
    simp only [Bool.and_eq_true, decide_eq_true_eq] at hk
    exact ⟨List.mem_of_find?_eq_some h, hk.1⟩

end Schema

end FilterGuard
