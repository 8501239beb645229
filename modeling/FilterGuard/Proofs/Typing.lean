import FilterGuard.Expr.Parse
import FilterGuard.Proofs.Coercion
import FilterGuard.Proofs.Integrity
import FilterGuard.Proofs.Meaning

/-!
# Types of bound expressions

A bound expression has a type of its own, which is read off its nodes. What
binding takes an expression's type to be is that type, so every check that
binding makes on types holds of the nodes it builds.
-/

namespace FilterGuard

/-! ## Static types -/

/-- The property of an instance that a name means. -/
def Schema.property? (s : Schema) (owner : EdmType) (name : String) : Option Property :=
  match owner with
  | .complex type | .entity type => (s.structuredType type).bind fun e => e.properties.find? fun p => p.name = name
  | _ => none

/-- The type of arithmetic: that of the operand that has one, if both have, that of the
left one. Only two points in time are a duration apart. -/
def EdmType.arithmetic : Option EdmType → Option EdmType → Option EdmType
  | none, type | type, none => type
  | some (.primitive .dateTimeOffset), some (.primitive .dateTimeOffset) => some (.primitive .duration)
  | some type, some _ => some type

/-- What a function returns, given the type of its first argument. -/
def Signature.type? (function : String) (first : Option EdmType) : Option EdmType :=
  match all.find? fun f => f.name = function with
  | some f => match f.result with
    | .fixed k => some (.primitive k)
    | .ofFirst => first
  | none => none

/-- The sort of access that reaches a property of a type. -/
inductive Access.Reaches : Access → EdmType → Prop
  | primitive (k : Primitive) : Reaches .property (.primitive k)
  | enum (name : String) : Reaches .property (.enum name)
  | complex (name : String) : Reaches .complex (.complex name)
  | entity (name : String) : Reaches .navigation (.entity name)
  | complexes (name : String) : Reaches .collectionComplex (.collection (.complex name))
  | entities (name : String) : Reaches .collectionNavigation (.collection (.entity name))
  | primitives (k : Primitive) : Reaches .collectionProperty (.collection (.primitive k))
  | enums (name : String) : Reaches .collectionProperty (.collection (.enum name))
  | collections (item : EdmType) : Reaches .collectionProperty (.collection (.collection item))

namespace Bound

mutual

/-- The type of an expression under a schema, as far as it is known. -/
def type? (s : Schema) : Bound → Option EdmType
  | const value => value.type
  | convert _ target => some (.primitive target)
  | unary .not _ => some .boolean
  | unary .negate operand => type? s operand
  | binary op left right =>
    if op.isArithmetic then EdmType.arithmetic (type? s left) (type? s right) else some .boolean
  | call function args => Signature.type? function (headType? s args)
  | within .. | quantified .. => some .boolean
  | access .dynamic _ _ | access _ none _ => none
  | access _ (some owner) name => do return (← s.property? (← type? s owner) name).type
  | list items => (itemType? s items).map .collection
  | var _ type => some type

def headType? (s : Schema) : List Bound → Option EdmType
  | [] => none
  | b :: _ => type? s b

/-- The first type among items that is known. -/
def itemType? (s : Schema) : List Bound → Option EdmType
  | [] => none
  | b :: bs => (type? s b).or (itemType? s bs)

end

theorem type?_access {s : Schema} {sort : Access} {owner : Bound} {name : String} {type : EdmType} {p : Property}
    (hs : sort.Reaches p.type) (ht : owner.type? s = some type) (hp : s.property? type name = some p) :
    (access sort (some owner) name).type? s = some p.type := by
  have h : (do return (← s.property? (← owner.type? s) name).type) = some p.type := by
    simp [ht, hp]
  cases sort <;> first | exact h | cases hs

end Bound

/-! ## Well-typed expressions -/

namespace EdmType

/-- Boolean or unknown. -/
inductive IsTruth : Option EdmType → Prop
  | unknown : IsTruth none
  | boolean : IsTruth (some (.primitive .boolean))

/-- A number, a duration or unknown. -/
inductive IsQuantity : Option EdmType → Prop
  | unknown : IsQuantity none
  | number {k : Primitive} (h : k.isNumeric = true) : IsQuantity (some (.primitive k))
  | duration : IsQuantity (some (.primitive .duration))

/-- The same primitive kind or the same enumeration, or one of them unknown. -/
inductive Comparable : Option EdmType → Option EdmType → Prop
  | unknownLeft (type : Option EdmType) : Comparable none type
  | unknownRight (type : Option EdmType) : Comparable type none
  | primitive (k : Primitive) : Comparable (some (.primitive k)) (some (.primitive k))
  | enum (name : String) : Comparable (some (.enum name)) (some (.enum name))

/-- What an arithmetic operator takes on its two sides. -/
inductive Calculable (op : BinaryOp) : Option EdmType → Option EdmType → Prop
  | unknownLeft {type} (h : IsQuantity type) : Calculable op none type
  | unknownRight {type} (h : IsQuantity type) : Calculable op type none
  | numbers {k : Primitive} (h : k.isNumeric = true) : Calculable op (some (.primitive k)) (some (.primitive k))
  | shift {k : Primitive} (hop : op = .add ∨ op = .sub) (hk : k = .date ∨ k = .dateTimeOffset ∨ k = .duration) :
      Calculable op (some (.primitive k)) (some (.primitive .duration))
  | distance (hop : op = .sub) :
      Calculable op (some (.primitive .dateTimeOffset)) (some (.primitive .dateTimeOffset))

theorem Comparable.symm {a b : Option EdmType} (h : Comparable a b) : Comparable b a := by
  cases h with
  | unknownLeft => exact .unknownRight _
  | unknownRight => exact .unknownLeft _
  | primitive k => exact .primitive k
  | enum name => exact .enum name

end EdmType

open EdmType Binding in
/-- An expression over typed variables, innermost first, in which every operator has
operands of types that it takes. -/
inductive Bound.WellTyped (s : Schema) (root : EdmType) : Scope → Bound → Prop
  | const {vars} (value : Literal) : WellTyped s root vars (.const value)
  | convert {vars source} {k target : Primitive} (h : WellTyped s root vars source)
      (hs : source.type? s = some (.primitive k)) (hk : k.isNumeric = true) (ht : target.isNumeric = true) :
      WellTyped s root vars (.convert source target)
  | not {vars operand} (h : WellTyped s root vars operand) (ht : IsTruth (operand.type? s)) :
      WellTyped s root vars (.unary .not operand)
  | negate {vars operand} (h : WellTyped s root vars operand) (ht : IsQuantity (operand.type? s)) :
      WellTyped s root vars (.unary .negate operand)
  | logical {vars left right} {op : BinaryOp} (hop : op.isLogical = true) (hl : WellTyped s root vars left)
      (hr : WellTyped s root vars right) (hlt : IsTruth (left.type? s)) (hrt : IsTruth (right.type? s)) :
      WellTyped s root vars (.binary op left right)
  | comparison {vars left right} {op : BinaryOp} (hop : op.isLogical = false) (ha : op.isArithmetic = false)
      (hl : WellTyped s root vars left) (hr : WellTyped s root vars right)
      (ht : Comparable (left.type? s) (right.type? s))
      (hh : op = .has → ∃ name, left.type? s = some (.enum name)) : WellTyped s root vars (.binary op left right)
  | arithmetic {vars left right} {op : BinaryOp} (hop : op.isArithmetic = true) (hl : WellTyped s root vars left)
      (hr : WellTyped s root vars right) (ht : Calculable op (left.type? s) (right.type? s)) :
      WellTyped s root vars (.binary op left right)
  | call {vars args} {f : Signature} (hf : f ∈ Signature.all) (hn : f.least ≤ args.length ∧ args.length ≤ f.most)
      (h : ∀ a ∈ args, WellTyped s root vars a)
      (ht : ∀ a ∈ args.take f.strings, Comparable (a.type? s) (some (.primitive .string))) :
      WellTyped s root vars (.call f.name args)
  | within {vars item candidates} (hi : WellTyped s root vars item) (hc : WellTyped s root vars candidates)
      (ht : ∀ type, item.type? s ≠ some (.collection type))
      (hct : (∃ items, candidates = .list items ∧ ∀ a ∈ items, Comparable (item.type? s) (a.type? s)) ∨
        ∃ type, candidates.type? s = some (.collection type)) : WellTyped s root vars (.within item candidates)
  | quantifiedEmpty {vars source item} (quantifier : Quantifier) (hs : WellTyped s root vars source)
      (ht : source.type? s = some (.collection item)) :
      WellTyped s root vars (.quantified quantifier source none (.const (.boolean true)))
  | quantified {vars source item v body} (quantifier : Quantifier) (hs : WellTyped s root vars source)
      (ht : source.type? s = some (.collection item)) (hb : WellTyped s root ((v, item) :: vars) body)
      (hbt : IsTruth (body.type? s)) : WellTyped s root vars (.quantified quantifier source (some v) body)
  | access {vars sort owner type name p} (ho : WellTyped s root vars owner) (ht : owner.type? s = some type)
      (hp : s.property? type name = some p) (hs : sort.Reaches p.type) :
      WellTyped s root vars (.access sort (some owner) name)
  /-- A name that is not declared in an open type. -/
  | dynamic {vars owner type e name} (ho : WellTyped s root vars owner)
      (ht : owner.type? s = some (.complex type) ∨ owner.type? s = some (.entity type))
      (he : s.structuredType type = some e) (hopen : e.isOpen = true) (hn : ∀ p ∈ e.properties, p.name ≠ name) :
      WellTyped s root vars (.access .dynamic (some owner) name)
  | list {vars items} (h : ∀ a ∈ items, WellTyped s root vars a) : WellTyped s root vars (.list items)
  | filtered {vars} : WellTyped s root vars (.var Bound.instanceName root)
  | var {vars v type} (hv : v ≠ Bound.instanceName) (h : vars.find? (fun w => w.1 = v) = some (v, type)) :
      WellTyped s root vars (.var v type)

namespace Binding

variable {s : Schema} {root : EdmType} {vars : Scope} {ctx : Context}

/-- What binding gives: a well-typed node with its type. -/
structure Sound (s : Schema) (root : EdmType) (vars : Scope) (x : Typed) : Prop where
  node : x.node.WellTyped s root vars
  type : x.node.type? s = x.type
  known : ∀ type, x.type = some type → s.Knows type

theorem Sound.truth {b : Bound} (h : b.WellTyped s root vars) (ht : b.type? s = some .boolean) :
    Sound s root vars (truth b) :=
  ⟨h, ht, fun _ h => by cases h; exact trivial⟩

/-- The types in a schema and in a scope are known by the names they have. -/
structure Settled (ctx : Context) : Prop where
  elements : ∀ e ∈ ctx.schema.elements, e.kind = .enum → ctx.schema.Knows (.enum e.fullName)
  properties : ∀ e ∈ ctx.schema.elements, ∀ p ∈ e.properties, ctx.schema.Knows p.type
  root : ctx.schema.Knows ctx.root

/-! ## Literals and paths -/

theorem enumConstant_type {e : Element} {member : String} {v : Literal} (h : enumConstant ctx e member = .ok v) :
    v.type = some (.enum e.fullName) := by
  obtain ⟨declared, rfl⟩ := enumConstant_ok h
  rfl

theorem sound_literal (hk : Settled ctx) {value : Literal} {x : Typed} (h : literal ctx value = .ok x) :
    Sound ctx.schema root vars x := by
  unfold literal at h
  split at h
  · split at h
    · cases h
    · next e he =>
      obtain ⟨v, hv, rfl⟩ := map_ok h
      refine ⟨.const v, rfl, fun type ht => ?_⟩
      rw [enumConstant_type hv] at ht
      cases ht
      exact hk.elements e (Schema.mem_of_enumType he).1 (Schema.kind_of_enumType he)
  · next hne =>
    cases h
    refine ⟨.const value, rfl, fun type ht => ?_⟩
    cases value with
    | enum => exact absurd rfl (hne _ _)
    | null => cases ht
    | _ =>
      cases ht
      trivial

theorem find?_of_findProperty {e : Element} {name : String} {ignoreCase : Bool} {p : Property}
    (h : e.findProperty name ignoreCase = .found p) : (e.properties.find? fun q => q.name = p.name) = some p := by
  unfold Element.findProperty at h
  split at h
  · next q hq =>
    cases h
    have hname : p.name = name := by simpa using List.find?_some hq
    rw [hname, hq]
  · refine of_ite h (fun h => ?_) nofun
    split at h <;> cases h
    next heq =>
    have hp : p ∈ e.properties ∧ Text.sameName p.name name = true :=
      List.mem_filter.mp (heq ▸ List.mem_singleton.mpr rfl)
    -- No other property answers to `name`, so none has the name of `p` and comes first.
    cases hf : e.properties.find? fun q => q.name = p.name with
    | none => simpa using List.find?_eq_none.mp hf p hp.1
    | some q =>
      have hq : q.name = p.name := by simpa using List.find?_some hf
      have hm : q ∈ e.properties.filter fun p => Text.sameName p.name name :=
        List.mem_filter.mpr ⟨List.mem_of_find?_eq_some hf, hq ▸ hp.2⟩
      rw [heq, List.mem_singleton] at hm
      rw [hm]

theorem not_declared_of_findProperty {e : Element} {name : String} {ignoreCase : Bool}
    (h : e.findProperty name ignoreCase = .missing) : ∀ p ∈ e.properties, p.name ≠ name := by
  unfold Element.findProperty at h
  split at h
  · cases h
  · next hn => simpa using hn

theorem reaches_accessTo (type : EdmType) : (accessTo type).Reaches type := by
  cases type with
  | primitive k => exact .primitive k
  | enum name => exact .enum name
  | complex name => exact .complex name
  | entity name => exact .entity name
  | collection item =>
    cases item with
    | primitive k => exact .primitives k
    | enum name => exact .enums name
    | complex name => exact .complexes name
    | entity name => exact .entities name
    | collection item => exact .collections item

theorem type?_property {owner : Bound} {type name : String} {x : Typed} (h : property ctx owner type name = .ok x)
    (ht : owner.type? ctx.schema = some (.complex type) ∨ owner.type? ctx.schema = some (.entity type)) :
    x.node.type? ctx.schema = x.type := by
  unfold property at h
  split at h
  · cases h
  next e he =>
  split at h
  · next p hp =>
    cases h
    have hf := find?_of_findProperty hp
    obtain ht | ht := ht <;>
      exact Bound.type?_access (reaches_accessTo p.type) ht (by simp [Schema.property?, he, hf])
  · split at h <;> cases h
    rfl
  · cases h

theorem sound_property (hk : Settled ctx) {owner : Bound} {type name : String} {x : Typed}
    (h : property ctx owner type name = .ok x) (ho : owner.WellTyped ctx.schema root vars)
    (ht : owner.type? ctx.schema = some (.complex type) ∨ owner.type? ctx.schema = some (.entity type)) :
    Sound ctx.schema root vars x := by
  have htype := type?_property h ht
  unfold property at h
  split at h
  · cases h
  next e he =>
  split at h
  · next p hp =>
    cases h
    have hf := find?_of_findProperty hp
    have hd : ∃ t, owner.type? ctx.schema = some t ∧ ctx.schema.property? t p.name = some p := by
      obtain ht | ht := ht <;> exact ⟨_, ht, by simp [Schema.property?, he, hf]⟩
    obtain ⟨t, ht, hd⟩ := hd
    have hs := reaches_accessTo p.type
    refine ⟨.access ho ht hd hs, htype, fun type ht => ?_⟩
    cases ht
    exact hk.properties e (Schema.mem_of_structuredType he) p (List.mem_of_find?_eq_some hf)
  · next hm =>
    by_cases hopen : e.isOpen = true
    · rw [if_pos hopen] at h
      cases h
      exact ⟨.dynamic ho ht he hopen (not_declared_of_findProperty hm), rfl, nofun⟩
    · rw [if_neg hopen] at h
      cases h
  · cases h

theorem sound_member (hk : Settled ctx) {owner x : Typed} {name : String} (h : member ctx owner name = .ok x)
    (ho : Sound ctx.schema root vars owner) : Sound ctx.schema root vars x := by
  unfold member at h
  split at h
  · next ht => exact sound_property hk h ho.node (.inl (ho.type.trans ht))
  · next ht => exact sound_property hk h ho.node (.inr (ho.type.trans ht))
  · cases h

theorem sound_filtered (hk : Settled ctx) : Sound ctx.schema ctx.root vars (filtered ctx) :=
  ⟨.filtered, rfl, fun _ h => Option.some.inj h ▸ hk.root⟩

theorem sound_resolve (hk : Settled ctx) (hv : ∀ v ∈ vars, ctx.schema.Knows v.2) {name : String} {x : Typed}
    (h : resolve ctx vars name = .ok x) : Sound ctx.schema ctx.root vars x := by
  unfold resolve at h
  split at h
  · cases h
    exact sound_filtered hk
  · next hn =>
    split at h
    · next v type hf =>
      cases h
      have hname : v = name := by simpa using List.find?_some hf
      subst hname
      exact ⟨.var hn hf, rfl, fun _ h => Option.some.inj h ▸ hv _ (List.mem_of_find?_eq_some hf)⟩
    · exact sound_member hk h (sound_filtered hk)

/-! ## Operators -/

theorem isTruth_of_requireBoolean {place : BooleanPlace} {x : Typed} (h : requireBoolean place x = .ok ()) :
    EdmType.IsTruth x.type := by
  unfold requireBoolean at h
  split at h
  · next ht =>
    rw [ht]
    exact .unknown
  · next t ht =>
    by_cases hb : t.isBoolean = true
    · rw [ht, show t = .boolean from eq_of_beq hb]
      exact .boolean
    · rw [if_neg hb] at h
      cases h

theorem isQuantity_of {type : Option EdmType} (h : type.all isQuantity = true) : EdmType.IsQuantity type := by
  cases type with
  | none => exact .unknown
  | some type =>
    cases type with
    | primitive k =>
      have h : k.isNumeric = true ∨ k = .duration := by simpa [isQuantity] using h
      obtain h | rfl := h
      · exact .number h
      · exact .duration
    | _ => cases h

theorem typed_asEnum {name operator : String} {x : Typed} {b : Bound} (hn : ctx.schema.Knows (.enum name))
    (h : asEnum ctx name operator x = .ok b) (hx : Sound ctx.schema root vars x) :
    b.WellTyped ctx.schema root vars ∧ EdmType.Comparable (some (.enum name)) (b.type? ctx.schema) := by
  unfold asEnum at h
  split at h
  · split at h
    · next e he =>
      obtain ⟨v, hv, rfl⟩ := map_ok h
      refine ⟨.const v, ?_⟩
      -- The constant has the name of what was found, which need not be the one looked up.
      rw [Bound.type?, enumConstant_type hv, hn e he]
      exact .enum name
    · cases h
  · by_cases ht : x.type = none ∨ x.type = some (.enum name)
    · rw [if_pos ht] at h
      cases h
      refine ⟨hx.node, ?_⟩
      rw [hx.type]
      obtain ht | ht := ht <;> rw [ht]
      · exact .unknownRight _
      · exact .enum name
    · rw [if_neg ht] at h
      cases h

theorem isNumeric_of_rank {k : Primitive} {n : Nat} (h : k.rank = some n) : k.isNumeric = true := by
  rw [Primitive.isNumeric, h]
  rfl

theorem Sound.convert {x : Typed} {k target : Primitive} (hx : Sound s root vars x)
    (ht : x.type = some (.primitive k)) (hk : k.isNumeric = true) (hn : target.isNumeric = true) :
    (Bound.convert x.node target).WellTyped s root vars :=
  .convert hx.node (hx.type.trans ht) hk hn

theorem typed_promote {operator : String} {left right : Typed} {a b : Primitive} {l r : Bound}
    (h : promote operator left right a b = .ok (l, r)) (hl : Sound s root vars left) (hr : Sound s root vars right)
    (hlt : left.type = some (.primitive a)) (hrt : right.type = some (.primitive b)) :
    l.WellTyped s root vars ∧ r.WellTyped s root vars ∧ EdmType.Comparable (l.type? s) (r.type? s) := by
  have hlt' := hl.type.trans hlt
  have hrt' := hr.type.trans hrt
  unfold promote at h
  by_cases hab : a = b
  · subst hab
    rw [if_pos rfl] at h
    cases h
    rw [hlt', hrt']
    exact ⟨hl.node, hr.node, .primitive a⟩
  · rw [if_neg hab] at h
    split at h
    · next m n hm hn =>
      have hm := isNumeric_of_rank hm
      have hn := isNumeric_of_rank hn
      split at h <;> cases h
      · rw [Bound.type?, hrt']
        exact ⟨hl.convert hlt hm hn, hr.node, .primitive b⟩
      · rw [Bound.type?, hlt']
        exact ⟨hl.node, hr.convert hrt hn hm, .primitive a⟩
    · cases h

theorem typed_unify {operator : String} {left right : Typed} {l r : Bound}
    (h : unify ctx operator left right = .ok (l, r)) (hl : Sound ctx.schema root vars left)
    (hr : Sound ctx.schema root vars right) :
    l.WellTyped ctx.schema root vars ∧ r.WellTyped ctx.schema root vars ∧
      EdmType.Comparable (l.type? ctx.schema) (r.type? ctx.schema) := by
  unfold unify at h
  split at h
  · next ht =>
    cases h
    rw [hl.type, ht]
    exact ⟨hl.node, hr.node, .unknownLeft _⟩
  · next ht _ =>
    cases h
    rw [hr.type, ht]
    exact ⟨hl.node, hr.node, .unknownRight _⟩
  · next name ht _ =>
    obtain ⟨r', hr', heq⟩ := map_ok h
    cases heq
    obtain ⟨hw, hc⟩ := typed_asEnum (hl.known _ ht) hr' hr
    rw [hl.type, ht]
    exact ⟨hl.node, hw, hc⟩
  · next name _ ht =>
    obtain ⟨l', hl', heq⟩ := map_ok h
    cases heq
    obtain ⟨hw, hc⟩ := typed_asEnum (hr.known _ ht) hl' hl
    rw [hr.type, ht]
    exact ⟨hw, hr.node, hc.symm⟩
  · next a b hlt hrt =>
    by_cases hab : a = b
    · subst hab
      rw [if_pos rfl] at h
      cases h
      rw [hl.type, hr.type, hlt, hrt]
      exact ⟨hl.node, hr.node, .enum a⟩
    · rw [if_neg hab] at h
      cases h
  · next hlt hrt => exact typed_promote h hl hr hlt hrt
  · cases h

theorem calculable_of_timeResult {op : BinaryOp} {a b k : Primitive} (h : timeResult op a b = some k) :
    EdmType.Calculable op (some (.primitive a)) (some (.primitive b)) ∧
      EdmType.arithmetic (some (.primitive a)) (some (.primitive b)) = some (.primitive k) := by
  unfold timeResult at h
  split at h
  · split at h <;> cases h
    next hop => exact ⟨.shift hop (by simp), rfl⟩
  · split at h <;> cases h
    next hop => exact ⟨.shift hop (by simp), rfl⟩
  · split at h <;> cases h
    next hop => exact ⟨.shift hop (by simp), rfl⟩
  · split at h <;> cases h
    next hop => exact ⟨.distance hop, rfl⟩
  · cases h

/-- A node for an arithmetic operator whose sides have types that it takes. -/
theorem Sound.arithmetic {op : BinaryOp} {l r : Bound} {type : Option EdmType} (hop : op.isArithmetic = true)
    (hl : l.WellTyped s root vars) (hr : r.WellTyped s root vars)
    (ht : EdmType.Calculable op (l.type? s) (r.type? s)) (htype : EdmType.arithmetic (l.type? s) (r.type? s) = type)
    (hk : ∀ t, type = some t → s.Knows t) : Sound s root vars ⟨.binary op l r, type⟩ :=
  ⟨.arithmetic hop hl hr ht, by rw [Bound.type?, if_pos hop, htype], hk⟩

/-- Sides that are numbers of one kind. -/
theorem Sound.numbers {op : BinaryOp} {l r : Bound} {k : Primitive} (hop : op.isArithmetic = true)
    (hk : k.isNumeric = true) (hl : l.WellTyped s root vars) (hr : r.WellTyped s root vars)
    (hlt : l.type? s = some (.primitive k)) (hrt : r.type? s = some (.primitive k)) :
    Sound s root vars ⟨.binary op l r, some (.primitive k)⟩ := by
  refine .arithmetic hop hl hr ?_ ?_ fun t ht => ?_
  · rw [hlt, hrt]
    exact .numbers hk
  · rw [hlt, hrt]
    cases k <;> first | rfl | cases hk
  · cases ht
    trivial

/-- Sides of which one has no known type, and whose known type, if there is one, is that of a quantity. -/
theorem Sound.partlyKnown {op : BinaryOp} (hop : op.isArithmetic = true) {left right : Typed}
    (hl : Sound s root vars left) (hr : Sound s root vars right) (hn : left.type = none ∨ right.type = none)
    (hq : (left.type.or right.type).all isQuantity = true) :
    Sound s root vars ⟨.binary op left.node right.node, left.type.or right.type⟩ := by
  have hq := isQuantity_of hq
  refine .arithmetic hop hl.node hr.node ?_ ?_ fun t ht => ?_
  · rw [hl.type, hr.type]
    obtain hn | hn := hn <;> rw [hn] at hq ⊢
    · exact .unknownLeft hq
    · rw [Option.or_none] at hq
      exact .unknownRight hq
  · rw [hl.type, hr.type]
    obtain hn | hn := hn <;> rw [hn]
    · rfl
    · cases left.type <;> rfl
  · obtain ht | ht := Option.or_eq_some_iff.mp ht
    · exact hl.known t ht
    · exact hr.known t ht.2

theorem eq_of_rank {a b : Primitive} {n : Nat} (ha : a.rank = some n) (hb : b.rank = some n) : a = b := by
  have h : ∀ a ∈ Primitive.all, ∀ b ∈ Primitive.all, a.rank = b.rank → a.rank.isSome = true → a = b := by decide
  exact h a a.mem_all b b.mem_all (ha.trans hb.symm) (by rw [ha]; rfl)

theorem sound_arithmetic {op : BinaryOp} (hop : op.isArithmetic = true) {left right x : Typed}
    (h : arithmetic op left right = .ok x) (hl : Sound s root vars left) (hr : Sound s root vars right) :
    Sound s root vars x := by
  unfold Binding.arithmetic at h
  dsimp only at h
  split at h
  · next hlt hrt =>
    cases h
    have hx := Sound.partlyKnown hop hl hr (.inl hlt) (by rw [hlt, hrt]; rfl)
    rwa [hlt, hrt] at hx
  · next t hlt hrt =>
    split at h <;> cases h
    next hq =>
    have hx := Sound.partlyKnown hop hl hr (.inl hlt) (by rw [hlt, hrt]; exact hq)
    rwa [hlt, hrt] at hx
  · next t hlt hrt =>
    split at h <;> cases h
    next hq =>
    have hx := Sound.partlyKnown hop hl hr (.inr hrt) (by rw [hlt, hrt]; exact hq)
    rwa [hlt, hrt] at hx
  · next a b hlt hrt =>
    have hlt' := hl.type.trans hlt
    have hrt' := hr.type.trans hrt
    split at h
    · next m n hm hn =>
      have ha := isNumeric_of_rank hm
      have hb := isNumeric_of_rank hn
      by_cases hmn : m < n
      · rw [if_pos hmn] at h
        cases h
        exact .numbers hop hb (hl.convert hlt ha hb) hr.node (by rw [Bound.type?]) hrt'
      · rw [if_neg hmn] at h
        by_cases hnm : n < m
        · rw [if_pos hnm] at h
          cases h
          exact .numbers hop ha hl.node (hr.convert hrt hb ha) hlt' (by rw [Bound.type?])
        · rw [if_neg hnm] at h
          cases h
          have hab : a = b := eq_of_rank hm (by rw [hn]; congr 1; omega)
          exact .numbers hop ha hl.node hr.node hlt' (hab ▸ hrt')
    · split at h <;> cases h
      next k hk =>
      obtain ⟨hc, hres⟩ := calculable_of_timeResult hk
      refine .arithmetic hop hl.node hr.node ?_ ?_ fun t ht => ?_
      · rw [hlt', hrt']
        exact hc
      · rw [hlt', hrt']
        exact hres
      · cases ht
        trivial
  · cases h

theorem sound_flagTest {left right x : Typed} (h : flagTest ctx left right = .ok x)
    (hl : Sound ctx.schema root vars left) (hr : Sound ctx.schema root vars right) :
    Sound ctx.schema root vars x := by
  unfold flagTest at h
  split at h
  · next name ht =>
    obtain ⟨r, hr', rfl⟩ := map_ok h
    obtain ⟨hw, hc⟩ := typed_asEnum (hl.known _ ht) hr' hr
    have ht := hl.type.trans ht
    exact .truth (.comparison rfl rfl hl.node hw (ht ▸ hc) fun _ => ⟨name, ht⟩) rfl
  · cases h

theorem sound_combine {op : BinaryOp} {left right x : Typed} (h : combine ctx op left right = .ok x)
    (hl : Sound ctx.schema root vars left) (hr : Sound ctx.schema root vars right) :
    Sound ctx.schema root vars x := by
  unfold combine at h
  by_cases hlog : op.isLogical = true
  · rw [if_pos hlog] at h
    obtain ⟨_, hlt, h⟩ := bind_ok h
    obtain ⟨_, hrt, h⟩ := bind_ok h
    cases h
    have hlt := hl.type ▸ isTruth_of_requireBoolean hlt
    have hrt := hr.type ▸ isTruth_of_requireBoolean hrt
    have ha : op.isArithmetic = false := by cases op <;> first | rfl | cases hlog
    exact .truth (.logical hlog hl.node hr.node hlt hrt) (by rw [Bound.type?, ha]; rfl)
  · rw [if_neg hlog] at h
    by_cases hhas : op = .has
    · subst hhas
      exact sound_flagTest h hl hr
    · rw [if_neg hhas] at h
      by_cases ha : op.isArithmetic = true
      · rw [if_pos ha] at h
        exact sound_arithmetic ha h hl hr
      · rw [if_neg ha] at h
        obtain ⟨⟨l, r⟩, hu, h⟩ := bind_ok h
        cases h
        obtain ⟨hwl, hwr, hc⟩ := typed_unify hu hl hr
        have hlog := Bool.eq_false_iff.mpr hlog
        have ha := Bool.eq_false_iff.mpr ha
        exact .truth (.comparison hlog ha hwl hwr hc (absurd · hhas)) (by rw [Bound.type?, ha]; rfl)

theorem sound_combineUnary {op : UnaryOp} {x y : Typed} (h : combineUnary op x = .ok y)
    (hx : Sound s root vars x) : Sound s root vars y := by
  cases op with
  | not =>
    obtain ⟨_, ht, h⟩ := bind_ok h
    cases h
    exact .truth (.not hx.node (hx.type ▸ isTruth_of_requireBoolean ht)) rfl
  | negate =>
    by_cases hq : x.type.all isQuantity = true
    · rw [combineUnary, if_pos hq] at h
      cases h
      exact ⟨.negate hx.node (hx.type ▸ isQuantity_of hq), hx.type, hx.known⟩
    · rw [combineUnary, if_neg hq] at h
      cases h

theorem typed_asItem {subject x y : Typed} (h : asItem ctx subject.type x = .ok y)
    (hs : Sound ctx.schema root vars subject) (hx : Sound ctx.schema root vars x) :
    y.node.WellTyped ctx.schema root vars ∧
      EdmType.Comparable (subject.node.type? ctx.schema) (y.node.type? ctx.schema) := by
  rw [hs.type]
  unfold asItem at h
  split at h
  · next ht =>
    cases h
    rw [ht]
    exact ⟨hx.node, .unknownLeft _⟩
  · next ht _ =>
    cases h
    rw [hx.type, ht]
    exact ⟨hx.node, .unknownRight _⟩
  · next name _ ht _ =>
    obtain ⟨b, hb, rfl⟩ := map_ok h
    rw [ht]
    exact typed_asEnum (hs.known _ ht) hb hx
  · next a b ht hxt =>
    rw [ht]
    by_cases hab : a = b
    · subst hab
      rw [if_pos rfl] at h
      cases h
      rw [hx.type, hxt]
      exact ⟨hx.node, .primitive a⟩
    · rw [if_neg hab] at h
      by_cases hn : (a.isNumeric && b.isNumeric) = true
      · rw [if_pos hn] at h
        cases h
        obtain ⟨ha, hb⟩ := Bool.and_eq_true_iff.mp hn
        exact ⟨hx.convert hxt hb ha, .primitive a⟩
      · rw [if_neg hn] at h
        cases h
  · cases h

/-! ## Lists and calls -/

theorem itemType?_map {xs : List Typed} (h : ∀ x ∈ xs, x.node.type? s = x.type) :
    Bound.itemType? s (xs.map Typed.node) = xs.findSome? Typed.type := by
  induction xs with
  | nil => rfl
  | cons x xs ih =>
    obtain ⟨hx, hxs⟩ := List.forall_mem_cons.mp h
    rw [List.map_cons, Bound.itemType?, hx, ih hxs, List.findSome?_cons]
    cases x.type <;> rfl

theorem headType?_map {xs : List Typed} (h : ∀ x ∈ xs, x.node.type? s = x.type) :
    Bound.headType? s (xs.map Typed.node) = xs.head?.bind Typed.type := by
  cases xs with
  | nil => rfl
  | cons x xs => exact h x (by simp)

theorem sound_list {xs : List Typed} (h : ∀ x ∈ xs, Sound s root vars x) : Sound s root vars (list xs) := by
  refine ⟨.list (by simpa using fun x hx => (h x hx).node), ?_, fun type ht => ?_⟩
  · rw [list, Bound.type?, itemType?_map fun x hx => (h x hx).type]
  · obtain ⟨item, hi, rfl⟩ := Option.map_eq_some_iff.mp ht
    obtain ⟨x, hx, hi⟩ := List.exists_of_findSome?_eq_some hi
    have hk := (h x hx).known _ hi
    exact hk

theorem signature_ok {function : String} {count : Nat} {f : Signature} (h : signature function count = .ok f) :
    f ∈ Signature.all ∧ f.least ≤ count ∧ count ≤ f.most := by
  unfold signature at h
  split at h
  · cases h
  · next f' hf =>
    by_cases hc : f'.least ≤ count ∧ count ≤ f'.most
    · rw [if_pos hc] at h
      cases h
      exact ⟨List.mem_of_find?_eq_some hf, hc⟩
    · rw [if_neg hc] at h
      cases h

theorem find?_name_of_mem {f : Signature} (h : f ∈ Signature.all) :
    (Signature.all.find? fun g => g.name = f.name) = some f := by
  have hall : ∀ f ∈ Signature.all, (Signature.all.find? fun g => g.name = f.name) = some f := by decide
  exact hall f h

theorem type?_name {f : Signature} (hf : f ∈ Signature.all) (first : Option EdmType) :
    Signature.type? f.name first = match f.result with
      | .fixed k => some (.primitive k)
      | .ofFirst => first := by
  rw [Signature.type?, find?_name_of_mem hf]

theorem sound_call {f : Signature} (hf : f ∈ Signature.all) {args : List Typed}
    (hn : f.least ≤ args.length ∧ args.length ≤ f.most) (h : ∀ x ∈ args, Sound s root vars x)
    (ht : ∀ x ∈ args.take f.strings, EdmType.Comparable x.type (some (.primitive .string))) :
    Sound s root vars (call f args) := by
  refine ⟨.call hf (by simpa using hn) (by simpa using fun x hx => (h x hx).node) ?_, ?_, fun type ht => ?_⟩
  · rw [← List.map_take, List.forall_mem_map]
    intro x hx
    rw [(h x (List.mem_of_mem_take hx)).type]
    exact ht x hx
  · rw [call, Bound.type?, type?_name hf]
    cases f.result with
    | fixed k => rfl
    | ofFirst => exact headType?_map fun x hx => (h x hx).type
  · rw [call] at ht
    cases hr : f.result with
    | fixed k =>
      rw [hr] at ht
      cases ht
      trivial
    | ofFirst =>
      rw [hr] at ht
      obtain ⟨x, hx, ht⟩ := Option.bind_eq_some_iff.mp ht
      exact (h x (List.mem_of_mem_head? hx)).known _ ht

theorem asArgument_ok {f : Signature} {index : Nat} {x y : Typed} (h : asArgument f index x = .ok y) :
    y = x ∧ (index < f.strings → EdmType.Comparable x.type (some (.primitive .string))) := by
  unfold asArgument at h
  by_cases hc : index < f.strings ∧ x.type ≠ none ∧ x.type ≠ some (.primitive .string)
  · rw [if_pos hc] at h
    cases h
  · rw [if_neg hc] at h
    cases h
    refine ⟨rfl, fun hi => ?_⟩
    by_cases hn : x.type = none
    · rw [hn]
      exact .unknownLeft _
    · rw [show x.type = some (.primitive .string) by simpa [hi, hn] using hc]
      exact .primitive .string

theorem itemType_ok {quantifier : Quantifier} {x : Typed} {item : EdmType} (h : itemType quantifier x = .ok item) :
    x.type = some (.collection item) := by
  unfold itemType at h
  split at h <;> cases h
  assumption

theorem requireSingle_ok {x : Typed} (h : requireSingle x = .ok ()) (type : EdmType) :
    x.type ≠ some (.collection type) := by
  intro ht
  rw [requireSingle, ht] at h
  cases h

theorem requireCollection_ok {x : Typed} (h : requireCollection x = .ok ()) :
    ∃ type, x.type = some (.collection type) := by
  unfold requireCollection at h
  split at h
  · exact ⟨_, by assumption⟩
  · cases h

/-- A search through a list whose items go with what is looked for. -/
theorem sound_withinList {x : Typed} (hx : Sound s root vars x) (hs : ∀ type, x.type ≠ some (.collection type))
    {items : List Typed}
    (hi : ∀ y ∈ items, y.node.WellTyped s root vars ∧ EdmType.Comparable (x.node.type? s) (y.node.type? s)) :
    Sound s root vars (truth (.within x.node (.list (items.map Typed.node)))) := by
  have hc : ∀ b ∈ items.map Typed.node, b.WellTyped s root vars ∧ EdmType.Comparable (x.node.type? s) (b.type? s) :=
    List.forall_mem_map.mpr hi
  refine .truth (.within hx.node (.list fun b hb => (hc b hb).1) ?_ (.inl ⟨_, rfl, fun b hb => (hc b hb).2⟩)) rfl
  rw [hx.type]
  exact hs

/-! ## Expressions -/

mutual

theorem sound_meaning {ctx : Context} (hk : Settled ctx) : ∀ (e : Expr) {vars : Scope} {x : Typed},
    (∀ v ∈ vars, ctx.schema.Knows v.2) → meaning ctx vars e = .ok x → Sound ctx.schema ctx.root vars x
  | .literal value, vars, x, _, h => by
    rw [meaning] at h
    exact sound_literal hk h
  | .list items, vars, x, hv, h => by
    rw [meaning] at h
    obtain ⟨xs, hxs, h⟩ := bind_ok h
    cases h
    obtain ⟨-, hx⟩ := sound_meanings hk items hv (fun _ x y h hx => by cases h; exact hx) hxs
    refine sound_list fun x hm => ?_
    obtain ⟨i, hi⟩ := List.getElem?_of_mem hm
    exact hx i x hi
  | .name name, vars, x, hv, h => by
    rw [meaning] at h
    exact sound_resolve hk hv h
  | .member owner name, vars, x, hv, h => by
    rw [meaning] at h
    obtain ⟨y, hy, h⟩ := bind_ok h
    exact sound_member hk h (sound_meaning hk owner hv hy)
  | .quantifiedEmpty quantifier source, vars, x, hv, h => by
    rw [meaning] at h
    obtain ⟨y, hy, h⟩ := bind_ok h
    have hy := sound_meaning hk source hv hy
    obtain ⟨item, hi, h⟩ := bind_ok h
    cases h
    have ht := itemType_ok hi
    exact .truth (.quantifiedEmpty quantifier hy.node (hy.type.trans ht)) rfl
  | .quantified quantifier source v body, vars, x, hv, h => by
    rw [meaning] at h
    obtain ⟨y, hy, h⟩ := bind_ok h
    have hy := sound_meaning hk source hv hy
    obtain ⟨item, hi, h⟩ := bind_ok h
    have ht := itemType_ok hi
    obtain ⟨z, hz, h⟩ := bind_ok h
    -- The variable may be compared with members of an enumeration, so its type must be known too.
    have hi := hy.known _ ht
    have hz := sound_meaning hk body (List.forall_mem_cons.mpr ⟨hi, hv⟩) hz
    obtain ⟨_, hb, h⟩ := bind_ok h
    cases h
    have hb := hz.type ▸ isTruth_of_requireBoolean hb
    exact .truth (.quantified quantifier hy.node (hy.type.trans ht) hz.node hb) rfl
  | .call function args, vars, x, hv, h => by
    rw [meaning] at h
    obtain ⟨f, hf, h⟩ := bind_ok h
    obtain ⟨hf, hn⟩ := signature_ok hf
    obtain ⟨xs, hxs, h⟩ := bind_ok h
    cases h
    obtain ⟨hl, hx⟩ := sound_meanings hk args hv (P := fun i x => Sound ctx.schema ctx.root vars x ∧
      (i < f.strings → EdmType.Comparable x.type (some (.primitive .string)))) (fun i x y h hx => by
        obtain ⟨rfl, ht⟩ := asArgument_ok h
        exact ⟨hx, ht⟩) hxs
    refine sound_call hf (hl ▸ hn) (fun x hm => ?_) fun x hm => ?_
    · obtain ⟨i, hi⟩ := List.getElem?_of_mem hm
      exact (hx i x hi).1
    · obtain ⟨i, hi, rfl⟩ := List.mem_take_iff_getElem.mp hm
      exact (hx i _ (List.getElem?_eq_getElem (by omega))).2 (by omega)
  | .unary op operand, vars, x, hv, h => by
    rw [meaning] at h
    obtain ⟨y, hy, h⟩ := bind_ok h
    exact sound_combineUnary h (sound_meaning hk operand hv hy)
  | .binary op left right, vars, x, hv, h => by
    rw [meaning] at h
    obtain ⟨y, hy, h⟩ := bind_ok h
    obtain ⟨z, hz, h⟩ := bind_ok h
    exact sound_combine h (sound_meaning hk left hv hy) (sound_meaning hk right hv hz)
  | .within item candidates, vars, x, hv, h => by
    rw [meaning] at h
    obtain ⟨y, hy, h⟩ := bind_ok h
    have hy := sound_meaning hk item hv hy
    obtain ⟨_, hs, h⟩ := bind_ok h
    have hs := requireSingle_ok hs
    split at h
    · obtain ⟨xs, hxs, h⟩ := bind_ok h
      cases h
      obtain ⟨-, hx⟩ := sound_meanings hk _ hv (fun _ _ _ h hx => typed_asItem h hy hx) hxs
      refine sound_withinList hy hs fun x hm => ?_
      obtain ⟨i, hi⟩ := List.getElem?_of_mem hm
      exact hx i x hi
    · obtain ⟨z, hz, h⟩ := bind_ok h
      obtain ⟨z', hz', h⟩ := bind_ok h
      cases h
      exact sound_withinList hy hs (List.forall_mem_singleton.mpr (typed_asItem hz' hy (sound_literal hk hz)))
    · obtain ⟨z, hz, h⟩ := bind_ok h
      obtain ⟨_, hc, h⟩ := bind_ok h
      cases h
      have hz := sound_meaning hk candidates hv hz
      obtain ⟨type, hc⟩ := requireCollection_ok hc
      exact .truth (.within hy.node hz.node (by rw [hy.type]; exact hs) (.inr ⟨type, hz.type.trans hc⟩)) rfl

theorem sound_meanings {ctx : Context} (hk : Settled ctx) : ∀ (es : List Expr) {vars : Scope} {index : Nat}
    {finish : Nat → Typed → Except ExprError Typed} {P : Nat → Typed → Prop} {xs : List Typed},
    (∀ v ∈ vars, ctx.schema.Knows v.2) →
    (∀ i x y, finish i x = .ok y → Sound ctx.schema ctx.root vars x → P i y) →
    meanings ctx vars finish index es = .ok xs → xs.length = es.length ∧ ∀ i x, xs[i]? = some x → P (index + i) x
  | [], _, _, _, _, _, _, _, h => by
    rw [meanings] at h
    cases h
    exact ⟨rfl, nofun⟩
  | e :: es, vars, index, finish, P, xs, hv, hf, h => by
    rw [meanings] at h
    obtain ⟨x, hx, h⟩ := bind_ok h
    obtain ⟨y, hy, h⟩ := bind_ok h
    obtain ⟨ys, hys, h⟩ := bind_ok h
    cases h
    have hy := hf _ _ _ hy (sound_meaning hk e hv hx)
    obtain ⟨hl, hys⟩ := sound_meanings hk es hv hf hys
    refine ⟨congrArg (· + 1) hl, fun i z hz => ?_⟩
    cases i with
    | zero => exact Option.some.inj hz ▸ hy
    | succ i =>
      have h := hys i z hz
      rwa [Nat.add_right_comm] at h

end

end Binding

instance (e : Element) : Decidable e.Plain :=
  decidable_of_iff (e.space ≠ "" ∧ '.' ∉ e.name.toList) ⟨fun h => ⟨h.1, h.2⟩, fun h => ⟨h.space, h.name⟩⟩

/-- A bound filter is well typed, and its own type is Boolean or unknown. -/
theorem wellTyped_of_bind {elements : List Element} {s : Schema} (hs : Schema.ofElements elements = .ok s)
    (hp : ∀ e ∈ s.elements, e.Plain) {type : Element} {options : Options} {e : Expr} {b : Bound}
    (h : Binding.bind s type options e = .ok b) :
    b.WellTyped s (.entity type.fullName) [] ∧ EdmType.IsTruth (b.type? s) := by
  obtain ⟨x, hx, ht, rfl⟩ := Binding.meaning_of_bind h
  have hknown : ∀ e ∈ s.elements, e.kind = .enum → s.Knows (.enum e.fullName) :=
    fun _ he _ => Schema.knows_fullName hp he
  have hk : Binding.Settled ⟨s, .entity type.fullName, options⟩ :=
    ⟨hknown, fun _ he _ hm => Schema.knows_property hs hknown he hm, trivial⟩
  have hx := Binding.sound_meaning hk e (List.forall_mem_nil _) hx
  exact ⟨hx.node, hx.type ▸ Binding.isTruth_of_requireBoolean ht⟩

def order : Element :=
  ⟨"N", "Order", .entity, ["id"],
    [⟨"id", .primitive .int32⟩, ⟨"total", .primitive .double⟩, ⟨"state", .enum "N.State"⟩,
     ⟨"lines", .collection (.complex "N.Line")⟩], [], true⟩

/-- Orders with lines and a state. Orders have undeclared properties as well. -/
def orders : Schema :=
  ⟨[order,
    ⟨"N", "Line", .complex, [], [⟨"price", .primitive .decimal⟩, ⟨"tags", .collection (.primitive .string)⟩], [], false⟩,
    ⟨"N", "State", .enum, [], [], ["Open", "Closed"], false⟩]⟩

def orderFilter : String :=
  "state eq 'open' and lines/any(l: l/price add 1 gt -total and l/tags/all(t: length(t) in (2.5, note)))"

theorem wellTyped_orders :
    ∃ e b, Expr.parse orderFilter 256 = .ok e ∧ Binding.bind orders order {} e = .ok b ∧
      b.WellTyped orders (.entity "N.Order") [] ∧ EdmType.IsTruth (b.type? orders) := by
  have h : (Expr.parse orderFilter 256 >>= Binding.bind orders order {}).toOption.any (fun _ => true) = true := by
    decide +kernel
  obtain ⟨b, h, -⟩ := exists_of_any h
  obtain ⟨e, he, hb⟩ := bind_ok h
  have hs : Schema.ofElements orders.elements = .ok orders := rfl
  exact ⟨e, b, he, hb, wellTyped_of_bind hs (by decide) hb⟩

end FilterGuard
