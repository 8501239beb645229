import FilterGuard.Proofs.Typing

/-!
# Types that binding looks up

Binding looks up the types that it meets: those of properties and of the filtered
instance, those of the variables of quantifiers, and the enumerations that strings are
read as members of. A schema has all of these, so no such lookup fails. The one type that
a schema may not have is one that a filter writes in front of a member.
-/

namespace FilterGuard

mutual

/-- The literals in an expression. -/
def Expr.literals : Expr → List Literal
  | literal value => [value]
  | list items => literalsEach items
  | name _ => []
  | member owner _ => owner.literals
  | quantifiedEmpty _ source => source.literals
  | quantified _ source _ body => source.literals ++ body.literals
  | call _ args => literalsEach args
  | unary _ operand => operand.literals
  | binary _ left right => left.literals ++ right.literals
  | within item candidates => item.literals ++ candidates.literals

def Expr.literalsEach : List Expr → List Literal
  | [] => []
  | e :: es => e.literals ++ literalsEach es

end

namespace Schema

variable {elements : List Element} {s : Schema}

/-- Whether a lookup finds what a type refers to, if it refers to anything. -/
def Resolves (s : Schema) (type : EdmType) : Prop :=
  ∀ kind name, type.reference? = some (kind, name) → ∃ d, s.target? kind name = some d

/-- Whether a literal is written with the name of an enumeration that no lookup finds. -/
def Dangles (s : Schema) (literals : List Literal) (name : String) : Prop :=
  (∃ member, .enum name member ∈ literals) ∧ s.enumType name = none

theorem resolves_primitive (k : Primitive) : s.Resolves (.primitive k) := nofun

theorem resolves_item {item : EdmType} (h : s.Resolves (.collection item)) : s.Resolves item := h

theorem resolves_collection {item : EdmType} (h : s.Resolves item) : s.Resolves (.collection item) := h

theorem target?_fullName (hs : ofElements elements = .ok s) (hp : ∀ e ∈ s.elements, e.Plain) {e : Element}
    (he : e ∈ s.elements) : s.target? e.kind e.fullName = some e := by
  have hn := nodup_fullNames hs
  have hd := not_hidden_of_undotted hn (fun e he => (hp e he).name) (.inl fun e he => (hp e he).space) he
  exact (target?_eq_iff rfl).mpr ((findType_eq_iff hn he).mpr hd)

theorem resolves_property (hs : ofElements elements = .ok s) (hp : ∀ e ∈ s.elements, e.Plain) {e : Element}
    (he : e ∈ s.elements) {p : Property} (hm : p ∈ e.properties) : s.Resolves p.type := by
  intro kind name hr
  obtain ⟨d, hd, rfl, rfl⟩ := exists_of_reference hs he hm hr
  exact ⟨d, target?_fullName hs hp hd⟩

end Schema

namespace Binding

/-! ## Computations whose lookups succeed -/

/-- Whether a computation ends with a result of that sort, or with an error about no other
type than one of a literal. -/
def Safe {α : Type} (s : Schema) (literals : List Literal) (P : α → Prop) : Except ExprError α → Prop
  | .ok a => P a
  | .error (.unknownType name) => s.Dangles literals name
  | .error _ => True

variable {ctx : Context} {s : Schema} {vars : Scope} {literals : List Literal}

namespace Safe

variable {α β : Type} {P : α → Prop} {Q : β → Prop} {x : Except ExprError α}

theorem bind {f : α → Except ExprError β} (hx : Safe s literals P x) (hf : ∀ a, P a → Safe s literals Q (f a)) :
    Safe s literals Q (x >>= f) := by
  cases x with
  | error e => cases e <;> exact hx
  | ok a => exact hf a hx

theorem map {f : α → β} (hx : Safe s literals P x) (hf : ∀ a, P a → Q (f a)) : Safe s literals Q (x.map f) := by
  cases x with
  | error e => cases e <;> exact hx
  | ok a => exact hf a hx

theorem ok {a : α} (hx : Safe s literals P x) (h : x = .ok a) : P a := by
  subst h
  exact hx

theorem dangles {name : String} (hx : Safe s literals P x) (h : x = .error (.unknownType name)) :
    s.Dangles literals name := by
  subst h
  exact hx

/-- A computation that is safe without any literal never misses a type. -/
theorem ne_unknownType (hx : Safe s [] P x) (name : String) : x ≠ .error (.unknownType name) := by
  intro h
  obtain ⟨⟨_, hm⟩, -⟩ := hx.dangles h
  cases hm

end Safe

/-- A schema that finds its enumerations, the types of its properties and that of the
filtered instance. -/
structure Closed (ctx : Context) : Prop where
  enums : ∀ e ∈ ctx.schema.elements, e.kind = .enum → ctx.schema.Resolves (.enum e.fullName)
  properties : ∀ e ∈ ctx.schema.elements, ∀ p ∈ e.properties, ctx.schema.Resolves p.type
  root : ctx.schema.Resolves ctx.root

/-- Whether the type of an expression is found, if it has one. -/
def Resolved (s : Schema) (x : Typed) : Prop :=
  ∀ type, x.type = some type → s.Resolves type

theorem resolved_truth (b : Bound) : Resolved s (truth b) := by
  intro type ht
  cases ht
  exact Schema.resolves_primitive _

theorem closed_of_ofElements {elements : List Element} (hs : Schema.ofElements elements = .ok s)
    (hp : ∀ e ∈ s.elements, e.Plain) {type : Element} (ht : type ∈ s.elements) (hst : type.isStructured = true)
    (options : Options) : Closed ⟨s, .entity type.fullName, options⟩ := by
  refine ⟨fun e he hk kind name hr => ?_, fun e he p hm => Schema.resolves_property hs hp he hm,
    fun kind name hr => ?_⟩
  · cases hr
    exact ⟨e, hk ▸ Schema.target?_fullName hs hp he⟩
  · cases hr
    refine ⟨type, ?_⟩
    -- A complex type is taken for an entity type, and both are looked up in the same way.
    have hf := Schema.target?_fullName hs hp ht
    unfold Element.isStructured at hst
    cases hk : type.kind <;> simp_all [Schema.target?]

/-! ## Literals and paths -/

theorem safe_enumConstant (hc : Closed ctx) {name : String} {e : Element} (he : ctx.schema.enumType name = some e)
    {member : String} : Safe ctx.schema literals (fun v => ∀ type, v.type = some type → ctx.schema.Resolves type)
      (enumConstant ctx e member) := by
  unfold enumConstant
  split
  · intro type ht
    cases ht
    exact hc.enums e (Schema.mem_of_enumType he).1 (Schema.kind_of_enumType he)
  · trivial

theorem safe_literal (hc : Closed ctx) {value : Literal} (hv : value ∈ literals) :
    Safe ctx.schema literals (Resolved ctx.schema) (literal ctx value) := by
  unfold literal
  split
  · split
    · next hn => exact ⟨⟨_, hv⟩, hn⟩
    · next he => exact (safe_enumConstant hc he).map fun v hv => hv
  · next hne =>
    intro type ht
    cases value with
    | enum => exact absurd rfl (hne _ _)
    | null => cases ht
    | _ =>
      cases ht
      exact Schema.resolves_primitive _

theorem safe_property (hc : Closed ctx) {type : String} {e : Element} (he : ctx.schema.structuredType type = some e)
    (owner : Bound) (name : String) :
    Safe ctx.schema literals (Resolved ctx.schema) (property ctx owner type name) := by
  unfold property
  rw [he]
  dsimp only
  split
  · next p hp =>
    intro t ht
    cases ht
    exact hc.properties e (Schema.mem_of_structuredType he) p
      (List.mem_of_find?_eq_some (find?_of_findProperty hp))
  · split
    · exact nofun
    · trivial
  · trivial

theorem safe_member (hc : Closed ctx) {owner : Typed} (ho : Resolved ctx.schema owner) (name : String) :
    Safe ctx.schema literals (Resolved ctx.schema) (member ctx owner name) := by
  unfold member
  split
  · next type ht =>
    obtain ⟨e, he⟩ := ho _ ht _ _ rfl
    exact safe_property hc he owner.node name
  · next type ht =>
    obtain ⟨e, he⟩ := ho _ ht _ _ rfl
    exact safe_property hc he owner.node name
  · trivial

theorem resolved_filtered (hc : Closed ctx) : Resolved ctx.schema (filtered ctx) := by
  intro type ht
  cases ht
  exact hc.root

theorem safe_resolve (hc : Closed ctx) (hv : ∀ v ∈ vars, ctx.schema.Resolves v.2) (name : String) :
    Safe ctx.schema literals (Resolved ctx.schema) (resolve ctx vars name) := by
  unfold resolve
  split
  · exact resolved_filtered hc
  · split
    · next v type hf =>
      intro t ht
      cases ht
      exact hv _ (List.mem_of_find?_eq_some hf)
    · exact safe_member hc (resolved_filtered hc) name

/-! ## Operators -/

theorem safe_requireBoolean (place : BooleanPlace) (x : Typed) :
    Safe s literals (fun _ => True) (requireBoolean place x) := by
  unfold requireBoolean
  split
  · trivial
  · split <;> trivial

/-- A string beside an enumeration that is found is read as one of its members, or not at all. -/
theorem safe_asEnum {name : String} (hn : ctx.schema.Resolves (.enum name)) (operator : String) (x : Typed) :
    Safe ctx.schema literals (fun _ => True) (asEnum ctx name operator x) := by
  obtain ⟨e, he⟩ := hn _ _ rfl
  have he : ctx.schema.enumType name = some e := he
  unfold asEnum
  split
  · rw [he]
    dsimp only
    unfold enumConstant
    split <;> trivial
  · split <;> trivial

theorem safe_unify {left right : Typed} (hl : Resolved ctx.schema left) (hr : Resolved ctx.schema right)
    (operator : String) : Safe ctx.schema literals (fun _ => True) (unify ctx operator left right) := by
  unfold unify
  split
  · trivial
  · trivial
  · next ht _ => exact (safe_asEnum (hl _ ht) operator right).map fun _ _ => trivial
  · next ht => exact (safe_asEnum (hr _ ht) operator left).map fun _ _ => trivial
  · split <;> trivial
  · unfold promote
    split
    · trivial
    · split
      · split <;> trivial
      · trivial
  · trivial

theorem primitive_of_isQuantity {type : EdmType} (h : isQuantity type = true) : ∃ k, type = .primitive k := by
  unfold isQuantity at h
  split at h
  · exact ⟨_, rfl⟩
  · cases h

/-- Arithmetic gives numbers, times and durations. -/
theorem safe_arithmetic (op : BinaryOp) (left right : Typed) :
    Safe s literals (Resolved s) (arithmetic op left right) := by
  have hp : ∀ (b : Bound) (k : Primitive), Resolved s ⟨b, some (.primitive k)⟩ := fun b k type ht => by
    cases ht
    exact Schema.resolves_primitive k
  unfold arithmetic
  dsimp only
  split
  · exact nofun
  · split
    · next hq =>
      obtain ⟨k, rfl⟩ := primitive_of_isQuantity hq
      exact hp _ k
    · trivial
  · split
    · next hq =>
      obtain ⟨k, rfl⟩ := primitive_of_isQuantity hq
      exact hp _ k
    · trivial
  · split
    · split
      · exact hp _ _
      · split <;> exact hp _ _
    · split
      · exact hp _ _
      · trivial
  · trivial

theorem safe_combine {op : BinaryOp} {left right : Typed} (hl : Resolved ctx.schema left)
    (hr : Resolved ctx.schema right) : Safe ctx.schema literals (Resolved ctx.schema) (combine ctx op left right) := by
  unfold combine
  split
  · refine (safe_requireBoolean _ left).bind fun _ _ => (safe_requireBoolean _ right).bind fun _ _ => ?_
    exact resolved_truth _
  · split
    · unfold flagTest
      split
      · next ht => exact (safe_asEnum (hl _ ht) _ right).map fun _ _ => resolved_truth _
      · trivial
    · split
      · exact safe_arithmetic op left right
      · exact (safe_unify hl hr _).bind fun _ _ => resolved_truth _

theorem safe_combineUnary {op : UnaryOp} {x : Typed} (hx : Resolved s x) :
    Safe s literals (Resolved s) (combineUnary op x) := by
  cases op with
  | not => exact (safe_requireBoolean _ x).bind fun _ _ => resolved_truth _
  | negate =>
    unfold combineUnary
    dsimp only
    split
    · exact hx
    · trivial

theorem safe_asItem {subject item : Typed} (hs : Resolved ctx.schema subject) (hi : Resolved ctx.schema item) :
    Safe ctx.schema literals (Resolved ctx.schema) (asItem ctx subject.type item) := by
  unfold asItem
  split
  · exact hi
  · exact hi
  · next ht _ => exact (safe_asEnum (hs _ ht) _ item).map fun _ _ => hi
  · split
    · exact hi
    · split
      · intro type ht
        cases ht
        exact Schema.resolves_primitive _
      · trivial
  · trivial

/-! ## Lists, functions and quantifiers -/

theorem resolved_list {xs : List Typed} (hx : ∀ x ∈ xs, Resolved s x) : Resolved s (list xs) := by
  intro type ht
  obtain ⟨item, hi, rfl⟩ := Option.map_eq_some_iff.mp ht
  obtain ⟨x, hm, hxi⟩ := List.exists_of_findSome?_eq_some hi
  exact Schema.resolves_collection (hx x hm item hxi)

theorem resolved_call (f : Signature) {args : List Typed} (hx : ∀ x ∈ args, Resolved s x) :
    Resolved s (call f args) := by
  intro type ht
  unfold call at ht
  dsimp only at ht
  split at ht
  · cases ht
    exact Schema.resolves_primitive _
  · obtain ⟨x, hm, ht⟩ := Option.bind_eq_some_iff.mp ht
    exact hx x (List.mem_of_mem_head? hm) type ht

theorem safe_signature (function : String) (count : Nat) :
    Safe s literals (fun _ => True) (signature function count) := by
  unfold signature
  split
  · trivial
  · split <;> trivial

theorem safe_asArgument (f : Signature) (index : Nat) {x : Typed} (hx : Resolved s x) :
    Safe s literals (Resolved s) (asArgument f index x) := by
  unfold asArgument
  split
  · trivial
  · exact hx

/-- The variable of a quantifier has the type of the items. -/
theorem safe_itemType (quantifier : Quantifier) {source : Typed} (hs : Resolved s source) :
    Safe s literals s.Resolves (itemType quantifier source) := by
  unfold itemType
  split
  · next ht => exact Schema.resolves_item (hs _ ht)
  · trivial

theorem safe_requireSingle (x : Typed) : Safe s literals (fun _ => True) (requireSingle x) := by
  unfold requireSingle
  split <;> trivial

theorem safe_requireCollection (x : Typed) : Safe s literals (fun _ => True) (requireCollection x) := by
  unfold requireCollection
  split <;> trivial

/-! ## Expressions -/

mutual

theorem safe_meaning (hc : Closed ctx) : ∀ (e : Expr) {vars : Scope}, (∀ v ∈ vars, ctx.schema.Resolves v.2) →
    e.literals ⊆ literals → Safe ctx.schema literals (Resolved ctx.schema) (meaning ctx vars e)
  | .literal value, vars, hv, hl => by
    rw [meaning]
    exact safe_literal hc (hl (List.mem_singleton.mpr rfl))
  | .list items, vars, hv, hl => by
    rw [meaning]
    refine (safe_meanings hc items hv hl ?_).bind fun _ hx => resolved_list hx
    exact fun _ _ hx => hx
  | .name name, vars, hv, hl => by
    rw [meaning]
    exact safe_resolve hc hv name
  | .member owner name, vars, hv, hl => by
    rw [meaning]
    exact (safe_meaning hc owner hv hl).bind fun _ ho => safe_member hc ho name
  | .quantifiedEmpty quantifier source, vars, hv, hl => by
    rw [meaning]
    refine (safe_meaning hc source hv hl).bind fun _ hs => (safe_itemType quantifier hs).bind fun _ _ => ?_
    exact resolved_truth _
  | .quantified quantifier source v body, vars, hv, hl => by
    rw [meaning]
    rw [Expr.literals, List.append_subset] at hl
    refine (safe_meaning hc source hv hl.1).bind fun _ hs => (safe_itemType quantifier hs).bind fun _ hi => ?_
    refine (safe_meaning hc body (List.forall_mem_cons.mpr ⟨hi, hv⟩) hl.2).bind fun _ _ => ?_
    exact (safe_requireBoolean _ _).bind fun _ _ => resolved_truth _
  | .call function args, vars, hv, hl => by
    rw [meaning]
    refine (safe_signature function _).bind fun f _ => ?_
    exact (safe_meanings hc args hv hl fun i _ hx => safe_asArgument f i hx).bind fun _ hx => resolved_call f hx
  | .unary op operand, vars, hv, hl => by
    rw [meaning]
    exact (safe_meaning hc operand hv hl).bind fun _ hx => safe_combineUnary hx
  | .binary op left right, vars, hv, hl => by
    rw [meaning]
    rw [Expr.literals, List.append_subset] at hl
    refine (safe_meaning hc left hv hl.1).bind fun _ hx => (safe_meaning hc right hv hl.2).bind fun _ hy => ?_
    exact safe_combine hx hy
  | .within item candidates, vars, hv, hl => by
    rw [meaning]
    rw [Expr.literals, List.append_subset] at hl
    refine (safe_meaning hc item hv hl.1).bind fun subject hx => (safe_requireSingle subject).bind fun _ _ => ?_
    split
    · refine (safe_meanings hc _ hv hl.2 ?_).bind fun _ _ => resolved_truth _
      exact fun _ _ hy => safe_asItem hx hy
    · refine (safe_literal hc (hl.2 (List.mem_singleton.mpr rfl))).bind fun _ hy => ?_
      exact (safe_asItem hx hy).bind fun _ _ => resolved_truth _
    · refine (safe_meaning hc candidates hv hl.2).bind fun y _ => (safe_requireCollection y).bind fun _ _ => ?_
      exact resolved_truth _

theorem safe_meanings (hc : Closed ctx) : ∀ (es : List Expr) {vars : Scope} {index : Nat}
    {finish : Nat → Typed → Except ExprError Typed}, (∀ v ∈ vars, ctx.schema.Resolves v.2) →
    Expr.literalsEach es ⊆ literals →
    (∀ i x, Resolved ctx.schema x → Safe ctx.schema literals (Resolved ctx.schema) (finish i x)) →
    Safe ctx.schema literals (fun xs => ∀ x ∈ xs, Resolved ctx.schema x) (meanings ctx vars finish index es)
  | [], vars, index, finish, hv, hl, hf => by
    rw [meanings]
    exact List.forall_mem_nil _
  | e :: es, vars, index, finish, hv, hl, hf => by
    rw [meanings]
    rw [Expr.literalsEach, List.append_subset] at hl
    refine (safe_meaning hc e hv hl.1).bind fun x hx => (hf _ x hx).bind fun y hy => ?_
    exact (safe_meanings hc es hv hl.2 hf).bind fun _ hys => List.forall_mem_cons.mpr ⟨hy, hys⟩

end

/-- A binder in a state whose variables have types that are found. -/
theorem safe_bindIn (hc : Closed ctx) {room : Nat} {st : State} (hs : st.depth + room = ctx.options.maxDepth)
    (hv : ∀ v ∈ st.scopes, ctx.schema.Resolves v.2) (e : Expr) :
    Safe ctx.schema e.literals (Resolved ctx.schema) ((bindIn ctx room e).run.run st).1 := by
  have hv : ∀ v ∈ st.vars, ctx.schema.Resolves v.2 := by simpa [State.vars] using hv
  obtain hr | ⟨-, hr⟩ := (faithful ctx e).bindIn hs
  · rw [hr]
    exact safe_meaning hc e hv (List.Subset.refl _)
  · rw [hr]
    trivial

theorem safe_bind {type : Element} {options : Options} (hc : Closed ⟨s, .entity type.fullName, options⟩) (e : Expr) :
    Safe s e.literals (fun _ => True) (bind s type options e) := by
  rw [Binding.bind]
  obtain hr | ⟨-, hr⟩ := runs_bindFilter ⟨s, .entity type.fullName, options⟩ e
  · rw [hr]
    refine (safe_meaning hc e (List.forall_mem_nil _) (List.Subset.refl _)).bind fun x _ => ?_
    exact (safe_requireBoolean _ x).bind fun _ _ => trivial
  · rw [hr]
    trivial

/-- The only types that binding misses are those that a filter writes in front of members.
A binder whose variables have types that are found gives only types that are found, so no
lookup fails for a property, the variable of a quantifier or a member of an enumeration. -/
theorem dangles_of_unknownType {elements : List Element} (hs : Schema.ofElements elements = .ok s)
    (hp : ∀ e ∈ s.elements, e.Plain) {type : Element} (ht : type ∈ s.elements) (hst : type.isStructured = true)
    (options : Options) :
    let ctx : Context := ⟨s, .entity type.fullName, options⟩
    (∀ e name, bind s type options e = .error (.unknownType name) → s.Dangles e.literals name) ∧
    ∀ (room : Nat) (st : State) (e : Expr), st.depth + room = options.maxDepth →
      (∀ v ∈ st.scopes, s.Resolves v.2) →
      let run := ((bindIn ctx room e).run.run st).1
      (∀ name, run = .error (.unknownType name) → s.Dangles e.literals name) ∧
      ∀ x, run = .ok x →
        (∀ t, x.type = some t → s.Resolves t) ∧
        (∀ segment name, member ctx x segment ≠ .error (.unknownType name)) ∧
        (∀ quantifier item, itemType quantifier x = .ok item → s.Resolves item) ∧
        ∀ enum operator y name, x.type = some (.enum enum) →
          asEnum ctx enum operator y ≠ .error (.unknownType name) := by
  have hc := closed_of_ofElements hs hp ht hst options
  refine ⟨fun e name h => (safe_bind hc e).dangles h, fun room st e hst hv => ?_⟩
  have hr := safe_bindIn hc hst hv e
  refine ⟨fun name h => hr.dangles h, fun x h => ?_⟩
  have hx := hr.ok h
  refine ⟨hx, fun segment name => ?_, fun quantifier item hi => ?_, fun enum operator y name ht => ?_⟩
  · exact (safe_member hc hx segment).ne_unknownType name
  · have hi' : Safe s [] s.Resolves (itemType quantifier x) := safe_itemType quantifier hx
    exact hi'.ok hi
  · exact (safe_asEnum (hx _ ht) operator y).ne_unknownType name

/-- A state is found by its type, so only the type that is written can be missing. -/
theorem dangles_orders :
    let ctx : Context := ⟨orders, .entity "N.Order", {}⟩
    let missing : Expr := .binary .has (.name "state") (.literal (.enum "N.Status" "Open"))
    (bind orders order {} missing = .error (.unknownType "N.Status") ∧
      orders.Dangles missing.literals "N.Status") ∧
    ∃ x, ((bindIn ctx 1 (.name "state")).run.run ⟨#[], 255⟩).1 = .ok x ∧ x.type = some (.enum "N.State") ∧
      ∀ operator y name, asEnum ctx "N.State" operator y ≠ .error (.unknownType name) := by
  intro ctx missing
  have hs : Schema.ofElements orders.elements = .ok orders := rfl
  obtain ⟨hbind, hrun⟩ := dangles_of_unknownType hs (by decide) (show order ∈ orders.elements by decide) rfl {}
  have h : bind orders order {} missing = .error (.unknownType "N.Status") := rfl
  refine ⟨⟨h, hbind _ _ h⟩, _, rfl, rfl, fun operator y name => ?_⟩
  obtain ⟨-, -, -, he⟩ := (hrun 1 ⟨#[], 255⟩ (.name "state") rfl nofun).2 _ rfl
  exact he _ operator y name rfl

end Binding

end FilterGuard
