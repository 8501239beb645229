import FilterGuard.Proofs.Lookup

/-!
# Reference integrity

The elements of a schema come out as they were written, with the full name of what it
means in the place of each reference. There is a schema exactly if there are elements, no
two of them have one full name, and every reference means an element of the kind that it
asks for. If there is none, the error names the first thing that is wrong. Elements whose
references have been resolved stay as they are.
-/

namespace FilterGuard

/-! ## References and what they mean -/

/-- The type with another name in its reference. -/
def EdmType.redirect (f : ElementKind → String → String) : EdmType → EdmType
  | .primitive k => .primitive k
  | .enum name => .enum (f .enum name)
  | .complex name => .complex (f .complex name)
  | .entity name => .entity (f .entity name)
  | .collection item => .collection (item.redirect f)

/-- The element with other names in the references of its properties. -/
def Element.redirect (f : ElementKind → String → String) (e : Element) : Element :=
  { e with properties := e.properties.map fun p => { p with type := p.type.redirect f } }

namespace Schema

/-- Whether an element of the kind that a type asks for has the name there, with its
namespace or alone. -/
def Refers (elements : List Element) (type : EdmType) : Prop :=
  ∀ kind name, type.reference? = some (kind, name) →
    ∃ d ∈ elements, d.kind = kind ∧ (d.fullName = name ∨ d.name = name)

/-- The full name of what a reference means. -/
def meant (elements : List Element) (kind : ElementKind) (name : String) : String :=
  (referent elements kind name).elim name Element.fullName

/-- The properties of all elements in the order in which they are declared. -/
def declared (elements : List Element) : List (Element × Property) :=
  elements.flatMap fun e => e.properties.map fun p => (e, p)

/-- What keeps elements from being a schema. -/
inductive Fault (elements : List Element) : SchemaError → Prop
  | empty (h : elements = []) : Fault elements .empty
  /-- The first element with the full name of an earlier one. -/
  | duplicate {front back : List Element} {e : Element} (hl : elements = front ++ e :: back)
      (hn : (front.map Element.fullName).Nodup) (he : e.fullName ∈ front.map Element.fullName) :
      Fault elements (.duplicateElement e.fullName)
  /-- The first property whose reference means nothing, of elements with different names. -/
  | unknown {front back : List (Element × Property)} {e : Element} {p : Property} {kind : ElementKind}
      {name : String} (hn : (elements.map Element.fullName).Nodup) (hl : declared elements = front ++ (e, p) :: back)
      (hf : ∀ d ∈ front, Refers elements d.2.type) (hr : p.type.reference? = some (kind, name))
      (hp : ¬ Refers elements p.type) : Fault elements (.unknownReference e.fullName p.name name kind)

variable {elements : List Element} {s : Schema}

theorem referent_eq_none_iff {kind : ElementKind} {name : String} :
    referent elements kind name = none ↔ ∀ d ∈ elements, d.kind = kind → d.fullName ≠ name ∧ d.name ≠ name := by
  unfold referent
  split
  · next e he =>
    have hk := List.find?_some he
    simp only [Bool.and_eq_true, decide_eq_true_eq] at hk
    simp only [reduceCtorEq, false_iff, not_forall]
    exact ⟨e, List.mem_of_find?_eq_some he, hk.1, fun h => h.1 hk.2⟩
  · next hn =>
    simp only [List.find?_eq_none, Bool.and_eq_true, decide_eq_true_eq, not_and] at hn ⊢
    exact ⟨fun h d hd hk => ⟨hn d hd hk, h d hd hk⟩, fun h d hd hk => (h d hd hk).2⟩

theorem refers_iff {type : EdmType} : Refers elements type ↔
    ∀ kind name, type.reference? = some (kind, name) → referent elements kind name ≠ none := by
  refine forall₃_congr fun kind name _ => ?_
  rw [Ne, referent_eq_none_iff]
  grind

/-- The reference of a type, if it means nothing. -/
def missing? (elements : List Element) (type : EdmType) : Option (String × ElementKind) :=
  match type.reference? with
  | some (kind, name) => if (referent elements kind name).isNone then some (name, kind) else none
  | none => none

/-- What is wrong with a property of an element. -/
def fault? (elements : List Element) (d : Element × Property) : Option SchemaError :=
  (missing? elements d.2.type).map fun m => .unknownReference d.1.fullName d.2.name m.1 m.2

theorem missing?_eq_none_iff {type : EdmType} : missing? elements type = none ↔ Refers elements type := by
  rw [refers_iff, missing?]
  split
  · next kind name h => simp [h]
  · next h => simp [h]

instance (elements : List Element) (type : EdmType) : Decidable (Refers elements type) :=
  decidable_of_iff (missing? elements type = none) missing?_eq_none_iff

theorem missing?_eq_some_iff {type : EdmType} {kind : ElementKind} {name : String} :
    missing? elements type = some (name, kind) ↔
      type.reference? = some (kind, name) ∧ ¬ Refers elements type := by
  rw [← missing?_eq_none_iff, missing?]
  split
  · next kind' name' h =>
    split <;> simp_all
    grind
  · next h => simp [h]

/-! ## Resolving references -/

theorem qualify_eq (elements : List Element) : ∀ type : EdmType,
    qualify elements type = (missing? elements type).elim (.ok (type.redirect (meant elements))) .error
  | .primitive _ => rfl
  | .enum name => by
    simp only [qualify, resolve, missing?, EdmType.reference?, EdmType.redirect, meant]
    cases referent elements .enum name <;> rfl
  | .complex name => by
    simp only [qualify, resolve, missing?, EdmType.reference?, EdmType.redirect, meant]
    cases referent elements .complex name <;> rfl
  | .entity name => by
    simp only [qualify, resolve, missing?, EdmType.reference?, EdmType.redirect, meant]
    cases referent elements .entity name <;> rfl
  | .collection item => by
    have hm : missing? elements (.collection item) = missing? elements item := rfl
    rw [qualify, qualify_eq elements item, hm]
    cases missing? elements item <;> rfl

theorem qualifyElement_eq (elements : List Element) (e : Element) :
    qualifyElement elements e = (e.properties.findSome? fun p => fault? elements (e, p)).elim
      (.ok (e.redirect (meant elements))) .error := by
  have hp : ∀ p, qualifyProperty elements e.fullName p =
      (fault? elements (e, p)).elim (.ok { p with type := p.type.redirect (meant elements) }) .error := by
    intro p
    rw [qualifyProperty, qualify_eq, fault?]
    cases missing? elements p.type <;> rfl
  rw [qualifyElement, mapM_eq_elim hp]
  cases e.properties.findSome? fun p => fault? elements (e, p) <;> rfl

theorem findSome?_declared {α : Type} (f : Element × Property → Option α) : ∀ es : List Element,
    (declared es).findSome? f = es.findSome? fun e => e.properties.findSome? fun p => f (e, p)
  | [] => rfl
  | e :: es => by
    rw [declared, List.flatMap_cons, List.findSome?_append, ← declared, findSome?_declared f es, List.findSome?_cons,
      List.findSome?_map]
    show (e.properties.findSome? fun p => f (e, p)).or _ = _
    cases e.properties.findSome? fun p => f (e, p) <;> rfl

theorem forall_declared {P : Element × Property → Prop} :
    (∀ d ∈ declared elements, P d) ↔ ∀ e ∈ elements, ∀ p ∈ e.properties, P (e, p) := by
  simp only [declared, List.forall_mem_flatMap, List.forall_mem_map]

/-- A list of elements is a schema if nothing is wrong with it. -/
theorem ofElements_eq (elements : List Element) : ofElements elements =
    if elements = [] then .error .empty
    else match firstRepeated [] (elements.map Element.fullName) with
      | some name => .error (.duplicateElement name)
      | none => ((declared elements).findSome? (fault? elements)).elim
          (.ok ⟨elements.map (Element.redirect (meant elements))⟩) .error := by
  rw [ofElements, mapM_eq_elim (qualifyElement_eq elements), findSome?_declared]
  cases firstRepeated [] (elements.map Element.fullName) with
  | some name => rfl
  | none => cases elements.findSome? fun e => e.properties.findSome? fun p => fault? elements (e, p) <;> rfl

/-! ## Names that come again -/

theorem firstRepeated_eq_some_iff {name : String} : ∀ {names seen : List String},
    firstRepeated seen names = some name ↔ ∃ front back, names = front ++ name :: back ∧ front.Nodup ∧
      (∀ other ∈ front, other ∉ seen) ∧ (name ∈ front ∨ name ∈ seen)
  | [], seen => by simp [firstRepeated]
  | first :: names, seen => by
    rw [firstRepeated]
    by_cases hs : first ∈ seen
    · rw [if_pos hs]
      constructor
      · intro h
        cases h
        exact ⟨[], names, rfl, List.nodup_nil, nofun, .inr hs⟩
      · rintro ⟨front, back, hl, -, hf, -⟩
        cases front with
        | nil => cases hl; rfl
        | cons _ front => cases hl; exact absurd hs (hf _ List.mem_cons_self)
    · rw [if_neg hs, firstRepeated_eq_some_iff]
      constructor
      · rintro ⟨front, back, rfl, hn, hf, hm⟩
        refine ⟨first :: front, back, rfl, List.nodup_cons.mpr ⟨fun h => hf _ h List.mem_cons_self, hn⟩, ?_, ?_⟩
        · exact List.forall_mem_cons.mpr ⟨hs, fun other ho h => hf other ho (List.mem_cons_of_mem _ h)⟩
        · simp only [List.mem_cons] at hm ⊢
          tauto
      · rintro ⟨front, back, hl, hn, hf, hm⟩
        cases front with
        | nil =>
          cases hl
          exact absurd (hm.resolve_left List.not_mem_nil) hs
        | cons _ front =>
          cases hl
          obtain ⟨hfirst, hn⟩ := List.nodup_cons.mp hn
          refine ⟨front, back, rfl, hn, fun other ho h => ?_, ?_⟩
          · rcases List.mem_cons.mp h with rfl | h
            · exact hfirst ho
            · exact hf other (List.mem_cons_of_mem _ ho) h
          · simp only [List.mem_cons] at hm ⊢
            tauto

theorem firstRepeated_eq_none_iff {names : List String} : firstRepeated [] names = none ↔ names.Nodup := by
  refine ⟨fun h => (nodup_of_firstRepeated h).1, fun hn => ?_⟩
  cases h : firstRepeated [] names with
  | none => rfl
  | some name =>
    obtain ⟨front, back, rfl, -, -, hm⟩ := firstRepeated_eq_some_iff.mp h
    have hm := hm.resolve_right List.not_mem_nil
    exact absurd rfl ((List.nodup_append.mp hn).2.2 name hm name List.mem_cons_self)

/-! ## What comes of elements -/

theorem ofElements_ok_iff : ofElements elements = .ok s ↔
    (elements ≠ [] ∧ (elements.map Element.fullName).Nodup ∧
      ∀ e ∈ elements, ∀ p ∈ e.properties, Refers elements p.type) ∧
      s = ⟨elements.map (Element.redirect (meant elements))⟩ := by
  have hfault : (declared elements).findSome? (fault? elements) = none ↔
      ∀ e ∈ elements, ∀ p ∈ e.properties, Refers elements p.type := by
    rw [List.findSome?_eq_none_iff, forall_declared]
    simp only [fault?, Option.map_eq_none_iff, missing?_eq_none_iff]
  rw [ofElements_eq, ← hfault, ← firstRepeated_eq_none_iff]
  by_cases he : elements = []
  · simp [he]
  · rw [if_neg he]
    cases firstRepeated [] (elements.map Element.fullName) with
    | some name => simp
    | none =>
      cases (declared elements).findSome? (fault? elements) with
      | some e => simp
      | none => simp [he, eq_comm]

theorem ofElements_error_iff {err : SchemaError} : ofElements elements = .error err ↔ Fault elements err := by
  have hfault : (declared elements).findSome? (fault? elements) = some err ↔
      ∃ front d back, declared elements = front ++ d :: back ∧ fault? elements d = some err ∧
        ∀ d ∈ front, Refers elements d.2.type := by
    rw [List.findSome?_eq_some_iff]
    simp only [fault?, Option.map_eq_none_iff, missing?_eq_none_iff]
  constructor
  · intro h
    rw [ofElements_eq] at h
    by_cases he : elements = []
    · rw [if_pos he] at h
      cases h
      exact .empty he
    · rw [if_neg he] at h
      split at h
      · next name hr =>
        cases h
        obtain ⟨front, back, hl, hn, -, hm⟩ := firstRepeated_eq_some_iff.mp hr
        obtain ⟨front, rest, rfl, rfl, hrest⟩ := List.map_eq_append_iff.mp hl
        obtain ⟨e, back, rfl, rfl, rfl⟩ := List.map_eq_cons_iff.mp hrest
        exact .duplicate rfl hn (hm.resolve_right List.not_mem_nil)
      · next hr =>
        cases hf : (declared elements).findSome? (fault? elements) with
        | none =>
          rw [hf] at h
          cases h
        | some e =>
          rw [hf] at h
          cases h
          obtain ⟨front, ⟨e, p⟩, back, hl, hd, hfront⟩ := hfault.mp hf
          obtain ⟨⟨name, kind⟩, hm, rfl⟩ := Option.map_eq_some_iff.mp hd
          obtain ⟨hr', hp⟩ := missing?_eq_some_iff.mp hm
          exact .unknown (firstRepeated_eq_none_iff.mp hr) hl hfront hr' hp
  · intro h
    rw [ofElements_eq]
    cases h with
    | empty h => rw [if_pos h]
    | @duplicate front back e hl hn he =>
      have hrep : firstRepeated [] (elements.map Element.fullName) = some e.fullName :=
        firstRepeated_eq_some_iff.mpr ⟨front.map Element.fullName, back.map Element.fullName, by simp [hl], hn,
          fun _ _ => List.not_mem_nil, .inl he⟩
      rw [if_neg (by simp [hl]), hrep]
    | @unknown front back e p kind name hn hl hf hr hp =>
      have hne : elements ≠ [] := by
        rintro rfl
        exact absurd hl (by simp [declared])
      have hm : fault? elements (e, p) = some (.unknownReference e.fullName p.name name kind) :=
        Option.map_eq_some_iff.mpr ⟨(name, kind), missing?_eq_some_iff.mpr ⟨hr, hp⟩, rfl⟩
      have hd := hfault.mpr ⟨front, (e, p), back, hl, hm, hf⟩
      rw [if_neg hne, firstRepeated_eq_none_iff.mpr hn, hd]
      rfl

/-! ## Resolved references -/

theorem reference?_redirect (f : ElementKind → String → String) : ∀ type : EdmType,
    (type.redirect f).reference? = type.reference?.map fun r => (r.1, f r.1 r.2)
  | .primitive _ | .enum _ | .complex _ | .entity _ => rfl
  | .collection item => reference?_redirect f item

theorem redirect_eq_self {f : ElementKind → String → String} : ∀ {type : EdmType},
    (∀ kind name, type.reference? = some (kind, name) → f kind name = name) → type.redirect f = type
  | .primitive _, _ => rfl
  | .enum _, h | .complex _, h | .entity _, h => congrArg _ (h _ _ rfl)
  | .collection item, h => by
    have hi : item.redirect f = item := redirect_eq_self h
    rw [EdmType.redirect, hi]

/-- What a reference means has the name that is written for it, and the kind that is asked for. -/
theorem exists_meant {type : EdmType} (h : Refers elements type) {kind : ElementKind} {name : String}
    (hr : type.reference? = some (kind, name)) :
    ∃ d ∈ elements, d.kind = kind ∧ d.fullName = meant elements kind name := by
  have hn := refers_iff.mp h kind name hr
  unfold meant
  cases hd : referent elements kind name with
  | none => exact absurd hd hn
  | some d =>
    obtain ⟨hm, hk⟩ := referent_spec hd
    exact ⟨d, hm, hk, rfl⟩

/-- A full name means itself. -/
theorem meant_fullName {d : Element} (hd : d ∈ elements) : meant elements d.kind d.fullName = d.fullName := by
  unfold meant referent
  cases hf : elements.find? fun e => e.kind = d.kind && e.fullName = d.fullName with
  | none => exact absurd (List.find?_eq_none.mp hf d hd) (by simp)
  | some e => exact (by simpa using List.find?_some hf : e.kind = d.kind ∧ e.fullName = d.fullName).2

theorem map_fullName_redirect (f : ElementKind → String → String) (es : List Element) :
    (es.map (Element.redirect f)).map Element.fullName = es.map Element.fullName := by
  rw [List.map_map]
  rfl

theorem map_redirect_eq_self {f : ElementKind → String → String} {es : List Element}
    (h : ∀ e ∈ es, ∀ p ∈ e.properties, ∀ kind name, p.type.reference? = some (kind, name) → f kind name = name) :
    es.map (Element.redirect f) = es := by
  refine (List.map_congr_left fun e he => ?_).trans (List.map_id' es)
  have hp : e.properties.map (fun p => { p with type := p.type.redirect f }) = e.properties.map id :=
    List.map_congr_left fun p hp => congrArg (Property.mk p.name) (redirect_eq_self (h e he p hp))
  rw [Element.redirect, hp, List.map_id]

/-- Every reference of a schema is the full name of an element of the kind that it asks for. -/
theorem exists_of_reference (h : ofElements elements = .ok s) {e : Element} (he : e ∈ s.elements) {p : Property}
    (hp : p ∈ e.properties) {kind : ElementKind} {name : String} (hr : p.type.reference? = some (kind, name)) :
    ∃ d ∈ s.elements, d.kind = kind ∧ d.fullName = name := by
  obtain ⟨⟨-, -, hrefers⟩, rfl⟩ := ofElements_ok_iff.mp h
  obtain ⟨e', he', rfl⟩ := List.mem_map.mp he
  obtain ⟨p', hp', rfl⟩ := List.mem_map.mp hp
  rw [reference?_redirect] at hr
  obtain ⟨⟨kind, name⟩, hr', hk⟩ := Option.map_eq_some_iff.mp hr
  cases hk
  obtain ⟨d, hd, hk, hf⟩ := exists_meant (hrefers e' he' p' hp') hr'
  exact ⟨d.redirect _, List.mem_map_of_mem hd, hk, hf⟩

theorem knows_of_reference : ∀ {type : EdmType},
    (∀ name, type.reference? = some (.enum, name) → s.Knows (.enum name)) → s.Knows type
  | .primitive _, _ | .complex _, _ | .entity _, _ => trivial
  | .enum name, h => h name rfl
  | .collection item, h => by
    have hi : s.Knows item := knows_of_reference h
    exact hi

/-- The enumerations in the types of properties are known. -/
theorem knows_property (h : ofElements elements = .ok s)
    (hk : ∀ e ∈ s.elements, e.kind = .enum → s.Knows (.enum e.fullName)) {e : Element} (he : e ∈ s.elements)
    {p : Property} (hm : p ∈ e.properties) : s.Knows p.type := by
  refine knows_of_reference fun name hr => ?_
  obtain ⟨d, hd, hkind, rfl⟩ := exists_of_reference h he hm hr
  exact hk d hd hkind

/-- Elements whose references are full names come out as they are. -/
theorem ofElements_resolved (h : ofElements elements = .ok s) : ofElements s.elements = .ok s := by
  have hres := @exists_of_reference _ _ h
  obtain ⟨⟨hne, hn, -⟩, rfl⟩ := ofElements_ok_iff.mp h
  refine ofElements_ok_iff.mpr ⟨⟨?_, ?_, ?_⟩, ?_⟩
  · simpa using hne
  · rwa [map_fullName_redirect]
  · intro e he p hp kind name hr
    obtain ⟨d, hd, hk, hf⟩ := hres he hp hr
    exact ⟨d, hd, hk, .inl hf⟩
  · refine congrArg Schema.mk (map_redirect_eq_self fun e he p hp kind name hr => ?_).symm
    obtain ⟨d, hd, rfl, rfl⟩ := hres he hp hr
    exact meant_fullName hd

/-- Elements are a schema exactly if there are some, their full names are different and every
reference means something. Then they are as before but for the references, each of which is a
full name, and they come out as they are if they go in again. If not, the first thing that is
wrong is the error. -/
theorem ofElements_integrity (elements : List Element) :
    ((∃ s, ofElements elements = .ok s) ↔ elements ≠ [] ∧ (elements.map Element.fullName).Nodup ∧
      ∀ e ∈ elements, ∀ p ∈ e.properties, Refers elements p.type) ∧
    (∀ s, ofElements elements = .ok s →
      s.elements = elements.map (Element.redirect (meant elements)) ∧
      (∀ e ∈ s.elements, ∀ p ∈ e.properties, ∀ kind name, p.type.reference? = some (kind, name) →
        ∃ d ∈ s.elements, d.kind = kind ∧ d.fullName = name) ∧
      ofElements s.elements = .ok s) ∧
    ∀ err, ofElements elements = .error err ↔ Fault elements err := by
  refine ⟨⟨?_, fun h => ⟨_, ofElements_ok_iff.mpr ⟨h, rfl⟩⟩⟩, fun s h => ⟨?_, ?_, ofElements_resolved h⟩,
    fun err => ofElements_error_iff⟩
  · rintro ⟨s, h⟩
    exact (ofElements_ok_iff.mp h).1
  · rw [(ofElements_ok_iff.mp h).2]
  · exact fun e he p hp kind name hr => exists_of_reference h he hp hr

/-- The tier is an enumeration, but only a complex type has the name that is written for it. -/
def misdirected : List Element :=
  [⟨"Shop", "Address", .complex, [], [⟨"city", .primitive .string⟩], [], false⟩,
    ⟨"Shop", "Customer", .entity, ["id"],
      [⟨"id", .primitive .int32⟩, ⟨"tier", .collection (.enum "Address")⟩, ⟨"home", .complex "Street"⟩], [], false⟩]

theorem integrity_shop_misdirected :
    (∃ s, ofElements shop = .ok s ∧ s.elements ≠ shop ∧ ofElements s.elements = .ok s) ∧
      ofElements misdirected = .error (.unknownReference "Shop.Customer" "tier" "Address" .enum) := by
  constructor
  · obtain ⟨s, h⟩ := (ofElements_integrity shop).1.mpr (by decide)
    obtain ⟨hs, -, hi⟩ := (ofElements_integrity shop).2.1 s h
    refine ⟨s, h, ?_, hi⟩
    rw [hs]
    decide
  · have hl : declared misdirected = (declared misdirected).take 2 ++ (declared misdirected)[2] :: _ := rfl
    exact ((ofElements_integrity misdirected).2.2 _).mpr
      (.unknown (by decide) hl (by decide) rfl (by decide))

end Schema

end FilterGuard
