import FilterGuard.Filter
import FilterGuard.Proofs.Coercion
import FilterGuard.Proofs.Meaning
import FilterGuard.Proofs.Outline
import FilterGuard.Proofs.Spelling

/-!
# Paths in bound filters

Binding turns what is written as a path into accesses over single instances, down
to a variable. So in a filter read from a text every collection that a quantifier
ranges over, and every owner of a property, is such a path and nothing else.
-/

namespace FilterGuard
open Binding Text

/-- The filtered instance or one of the variables, or a single instance reached
from there. -/
inductive Bound.IsOwner (vars : List String) : Bound → Prop
  | var {name} (type : EdmType) (hv : name = Bound.instanceName ∨ name ∈ vars) : IsOwner vars (.var name type)
  | complex {owner name} (ho : IsOwner vars owner) (hn : name ≠ "") :
      IsOwner vars (.access .complex (some owner) name)
  | navigation {owner name} (ho : IsOwner vars owner) (hn : name ≠ "") :
      IsOwner vars (.access .navigation (some owner) name)

/-- An owner, or any property of one. -/
inductive Bound.IsPath (vars : List String) : Bound → Prop
  | var {name} (type : EdmType) (hv : name = Bound.instanceName ∨ name ∈ vars) : IsPath vars (.var name type)
  | access (sort : Access) {owner name} (ho : owner.IsOwner vars) (hn : name ≠ "") :
      IsPath vars (.access sort (some owner) name)

/-- What a quantifier can range over: a path, but not the filtered instance. -/
inductive Bound.IsSource (vars : List String) : Bound → Prop
  | var {name} (type : EdmType) (hv : name ∈ vars) : IsSource vars (.var name type)
  | access (sort : Access) {owner name} (ho : owner.IsOwner vars) (hn : name ≠ "") :
      IsSource vars (.access sort (some owner) name)

/-- An expression over variables in which all accesses are paths and all quantifiers
range over sources. -/
inductive Bound.Orderly : List String → Bound → Prop
  | const {vars} (value : Literal) : Orderly vars (.const value)
  | convert {vars source} (target : Primitive) (h : Orderly vars source) : Orderly vars (.convert source target)
  | unary {vars} (op : UnaryOp) {operand} (h : Orderly vars operand) : Orderly vars (.unary op operand)
  | binary {vars} (op : BinaryOp) {left right} (hl : Orderly vars left) (hr : Orderly vars right) :
      Orderly vars (.binary op left right)
  | call {vars} (function : String) {args} (h : ∀ a ∈ args, Orderly vars a) : Orderly vars (.call function args)
  | within {vars item candidates} (hi : Orderly vars item) (hc : Orderly vars candidates) :
      Orderly vars (.within item candidates)
  | quantified {vars} (quantifier : Quantifier) {source} (var : Option String) {body} (hs : source.IsSource vars)
      (hb : Orderly (var.toList ++ vars) body) : Orderly vars (.quantified quantifier source var body)
  | list {vars items} (h : ∀ a ∈ items, Orderly vars a) : Orderly vars (.list items)
  | path {vars b} (h : b.IsPath vars) : Orderly vars b

namespace Bound

variable {vars : List String}

theorem IsSource.isPath {b : Bound} (h : b.IsSource vars) : b.IsPath vars := by
  cases h with
  | var type hv => exact .var type (.inr hv)
  | access sort ho hn => exact .access sort ho hn

end Bound

namespace Binding

theorem Coerced.orderly {vars : List String} {b c : Bound} (h : Coerced b c) (hb : b.Orderly vars) :
    c.Orderly vars := by
  cases h with
  | same => exact hb
  | convert target => exact .convert target hb
  | member => exact .const _

theorem Joined.orderly {vars : List String} {op : BinaryOp} {left right : Bound} {x : Typed}
    (h : Joined op left right x) (hl : left.Orderly vars) (hr : right.Orderly vars) : x.node.Orderly vars := by
  obtain ⟨l, r, hx, hcl, hcr⟩ := h
  rw [hx]
  exact .binary op (hcl.orderly hl) (hcr.orderly hr)

/-! ## Names -/

/-- A bound expression that a path may go on from: quantifiers range over it if it
is a collection, and it is an owner if it is an instance with properties. -/
structure Reached (vars : List String) (x : Typed) : Prop where
  source : ∀ item, x.type = some (.collection item) → x.node.IsSource vars
  owner : ∀ name, x.type = some (.complex name) ∨ x.type = some (.entity name) → x.node.IsOwner vars

/-- Nothing is said of what has neither a collection nor properties. -/
theorem reached_of_type {vars : List String} {x : Typed} (hc : ∀ item, x.type ≠ some (.collection item))
    (hs : ∀ name, x.type ≠ some (.complex name) ∧ x.type ≠ some (.entity name)) : Reached vars x := by
  refine ⟨fun item h => absurd h (hc item), fun name h => ?_⟩
  rcases h with h | h
  · exact absurd h (hs name).1
  · exact absurd h (hs name).2

theorem reached_truth (vars : List String) (b : Bound) : Reached vars (truth b) :=
  reached_of_type nofun fun _ => ⟨nofun, nofun⟩

theorem reached_filtered {ctx : Context} (hroot : ∀ item, ctx.root ≠ .collection item) (vars : List String) :
    Reached vars (filtered ctx) :=
  ⟨fun item h => absurd (Option.some.inj h) (hroot item), fun _ _ => .var ctx.root (.inl rfl)⟩

theorem reached_var {vars : List String} {name : String} (type : EdmType) (hv : name ∈ vars) :
    Reached vars ⟨.var name type, some type⟩ :=
  ⟨fun _ _ => .var type hv, fun _ _ => .var type (.inr hv)⟩

theorem sameName_of_found {e : Element} {name : String} {ignoreCase : Bool} {p : Property}
    (h : e.findProperty name ignoreCase = .found p) : sameName p.name name = true := by
  unfold Element.findProperty at h
  split at h
  · next q hq =>
    cases h
    have hname : p.name = name := by simpa using List.find?_some hq
    rw [hname, sameName_self]
  · split at h
    · split at h <;> cases h
      next heq =>
      have hp : p ∈ e.properties.filter fun p => sameName p.name name := heq ▸ List.mem_singleton.mpr rfl
      exact (List.mem_filter.mp hp).2
    · cases h

theorem ne_empty_of_sameName {a b : String} (h : sameName a b = true) (hb : b ≠ "") : a ≠ "" := by
  intro ha
  subst ha
  have hf : fold b = "" := (sameName_iff.mp h).symm
  have hl : b.toList = [] := by simpa [fold] using hf
  exact hb (String.toList_eq_nil_iff.mp hl)

theorem reached_property {vars : List String} {ctx : Context} {owner : Bound} {type name : String} {x : Typed}
    (h : property ctx owner type name = .ok x) (ho : owner.IsOwner vars) (hn : name ≠ "") :
    x.node.IsPath vars ∧ Reached vars x := by
  unfold property at h
  split at h
  · cases h
  · split at h
    · next p hp =>
      cases h
      have hp := ne_empty_of_sameName (sameName_of_found hp) hn
      refine ⟨.access _ ho hp, fun _ _ => .access _ ho hp, fun type ht => ?_⟩
      rcases ht with ht | ht
      · rw [show p.type = _ from Option.some.inj ht]
        exact .complex ho hp
      · rw [show p.type = _ from Option.some.inj ht]
        exact .navigation ho hp
    · split at h <;> cases h
      exact ⟨.access _ ho hn, reached_of_type nofun fun _ => ⟨nofun, nofun⟩⟩
    · cases h

theorem reached_member {vars : List String} {ctx : Context} {owner x : Typed} {name : String}
    (h : member ctx owner name = .ok x) (ho : Reached vars owner) (hn : name ≠ "") :
    x.node.IsPath vars ∧ Reached vars x := by
  unfold member at h
  split at h
  · next ht => exact reached_property h (ho.owner _ (.inl ht)) hn
  · next ht => exact reached_property h (ho.owner _ (.inr ht)) hn
  · cases h

theorem reached_resolve {ctx : Context} (hroot : ∀ item, ctx.root ≠ .collection item) {scope : Scope} {name : String}
    {x : Typed} (h : resolve ctx scope name = .ok x) (hn : name ≠ "") :
    x.node.IsPath (scope.map Prod.fst) ∧ Reached (scope.map Prod.fst) x := by
  unfold resolve at h
  split at h
  · cases h
    exact ⟨.var _ (.inl rfl), reached_filtered hroot _⟩
  · split at h
    · next hf =>
      cases h
      have hv := List.mem_map_of_mem (f := Prod.fst) (List.mem_of_find?_eq_some hf)
      exact ⟨.var _ (.inr hv), reached_var _ hv⟩
    · exact reached_member h (reached_filtered hroot _) hn

/-! ## Expressions -/

theorem orderly_literal {ctx : Context} {value : Literal} {x : Typed} (h : literal ctx value = .ok x)
    (vars : List String) : x.node.Orderly vars := by
  unfold literal at h
  split at h
  · split at h
    · cases h
    · obtain ⟨v, -, rfl⟩ := map_ok h
      exact .const v
  · cases h
    exact .const _

theorem forall_node {P : Bound → Prop} {xs : List Typed} (h : ∀ x ∈ xs, P x.node) :
    ∀ b ∈ xs.map Typed.node, P b := by
  intro b hb
  obtain ⟨x, hx, rfl⟩ := List.mem_map.mp hb
  exact h x hx

theorem Reached.of_itemType {vars : List String} {quantifier : Quantifier} {x : Typed} {item : EdmType}
    (h : itemType quantifier x = .ok item) (hx : Reached vars x) : x.node.IsSource vars := by
  unfold itemType at h
  split at h <;> cases h
  exact hx.source _ (by assumption)

theorem orderly_asArgument {vars : List String} {s : Signature} {index : Nat} {x y : Typed}
    (h : asArgument s index x = .ok y) (hx : x.node.Orderly vars) : y.node.Orderly vars := by
  unfold asArgument at h
  split at h <;> cases h
  exact hx

mutual

theorem orderly_meaning {ctx : Context} (hroot : ∀ item, ctx.root ≠ .collection item) :
    ∀ (e : Expr) {scope : Scope} {x : Typed}, e.Orderly → meaning ctx scope e = .ok x →
    x.node.Orderly (scope.map Prod.fst) ∧ (e.isPath = true → Reached (scope.map Prod.fst) x)
  | .literal value, scope, x, _, h => by
    rw [meaning] at h
    exact ⟨orderly_literal h _, nofun⟩
  | .list items, scope, x, he, h => by
    rw [meaning] at h
    cases he with
    | list _ hi =>
      obtain ⟨xs, hxs, h⟩ := bind_ok h
      cases h
      have hx := orderly_meanings hroot items hi (fun _ _ _ h hb => by cases h; exact hb) hxs
      exact ⟨.list (forall_node hx), nofun⟩
  | .name name, scope, x, he, h => by
    rw [meaning] at h
    cases he with
    | name hn =>
      obtain ⟨hp, hr⟩ := reached_resolve hroot h hn.ne_empty
      exact ⟨.path hp, fun _ => hr⟩
  | .member owner name, scope, x, he, h => by
    rw [meaning] at h
    cases he with
    | member hp ho hn =>
      obtain ⟨y, hy, h⟩ := bind_ok h
      obtain ⟨-, hr⟩ := orderly_meaning hroot owner ho hy
      obtain ⟨hp, hr⟩ := reached_member h (hr hp) hn.ne_empty
      exact ⟨.path hp, fun _ => hr⟩
  | .quantifiedEmpty quantifier source, scope, x, he, h => by
    rw [meaning] at h
    cases he with
    | quantifiedEmpty hp hs =>
      obtain ⟨y, hy, h⟩ := bind_ok h
      obtain ⟨-, hr⟩ := orderly_meaning hroot source hs hy
      obtain ⟨item, hi, h⟩ := bind_ok h
      cases h
      exact ⟨.quantified quantifier none ((hr hp).of_itemType hi) (.const _), fun _ => reached_truth _ _⟩
  | .quantified quantifier source v body, scope, x, he, h => by
    rw [meaning] at h
    cases he with
    | quantified hp hs _ hb =>
      obtain ⟨y, hy, h⟩ := bind_ok h
      obtain ⟨-, hr⟩ := orderly_meaning hroot source hs hy
      obtain ⟨item, hi, h⟩ := bind_ok h
      obtain ⟨z, hz, h⟩ := bind_ok h
      obtain ⟨hz, -⟩ := orderly_meaning hroot body hb hz
      obtain ⟨_, -, h⟩ := bind_ok h
      cases h
      exact ⟨.quantified quantifier (some v) ((hr hp).of_itemType hi) hz, fun _ => reached_truth _ _⟩
  | .call function args, scope, x, he, h => by
    rw [meaning] at h
    cases he with
    | call _ _ ha =>
      obtain ⟨s, -, h⟩ := bind_ok h
      obtain ⟨xs, hxs, h⟩ := bind_ok h
      cases h
      have hx := orderly_meanings hroot args ha (fun _ _ _ => orderly_asArgument) hxs
      exact ⟨.call s.name (forall_node hx), nofun⟩
  | .unary op operand, scope, x, he, h => by
    rw [meaning] at h
    cases he with
    | unary ho =>
      obtain ⟨y, hy, h⟩ := bind_ok h
      rw [node_combineUnary h]
      exact ⟨.unary op (orderly_meaning hroot operand ho hy).1, nofun⟩
  | .binary op left right, scope, x, he, h => by
    rw [meaning] at h
    cases he with
    | binary hl hr =>
      obtain ⟨y, hy, h⟩ := bind_ok h
      obtain ⟨z, hz, h⟩ := bind_ok h
      have hy := (orderly_meaning hroot left hl hy).1
      exact ⟨(joined_combine h).orderly hy (orderly_meaning hroot right hr hz).1, nofun⟩
  | .within item candidates, scope, x, he, h => by
    rw [meaning] at h
    cases he with
    | within hi hc =>
      obtain ⟨y, hy, h⟩ := bind_ok h
      have hy := (orderly_meaning hroot item hi hy).1
      obtain ⟨_, -, h⟩ := bind_ok h
      -- A list is bound item by item, so that each item can be fitted to what is looked for.
      split at h
      · cases hc with
        | list _ hc =>
          obtain ⟨xs, hxs, h⟩ := bind_ok h
          cases h
          have hx := orderly_meanings hroot _ hc (fun _ _ _ h => (coerced_asItem h).orderly) hxs
          exact ⟨.within hy (.list (forall_node hx)), nofun⟩
      · obtain ⟨z, hz, h⟩ := bind_ok h
        obtain ⟨z', hz', h⟩ := bind_ok h
        cases h
        have hz' := (coerced_asItem hz').orderly (orderly_literal hz (scope.map Prod.fst))
        exact ⟨.within hy (.list (List.forall_mem_singleton.mpr hz')), nofun⟩
      · obtain ⟨z, hz, h⟩ := bind_ok h
        obtain ⟨_, -, h⟩ := bind_ok h
        cases h
        exact ⟨.within hy (orderly_meaning hroot candidates hc hz).1, nofun⟩

theorem orderly_meanings {ctx : Context} (hroot : ∀ item, ctx.root ≠ .collection item) :
    ∀ (es : List Expr) {scope : Scope} {index : Nat} {finish : Nat → Typed → Except ExprError Typed} {xs : List Typed},
    (∀ e ∈ es, e.Orderly) →
    (∀ i x y, finish i x = .ok y → x.node.Orderly (scope.map Prod.fst) → y.node.Orderly (scope.map Prod.fst)) →
    meanings ctx scope finish index es = .ok xs → ∀ x ∈ xs, x.node.Orderly (scope.map Prod.fst)
  | [], _, _, _, _, _, _, h => by
    rw [meanings] at h
    cases h
    nofun
  | e :: es, scope, index, finish, xs, he, hf, h => by
    rw [meanings] at h
    obtain ⟨x, hx, h⟩ := bind_ok h
    obtain ⟨y, hy, h⟩ := bind_ok h
    obtain ⟨ys, hys, h⟩ := bind_ok h
    cases h
    have he := List.forall_mem_cons.mp he
    have hy := hf _ _ _ hy (orderly_meaning hroot e he.1 hx).1
    exact List.forall_mem_cons.mpr ⟨hy, orderly_meanings hroot es he.2 hf hys⟩

end

end Binding

theorem orderly_of_bindText {text : String} {schema : Schema} {type : Element} {options : Options} {b : Bound}
    (h : bindText text schema type options = .ok b) : b.Orderly [] := by
  obtain ⟨e, he, h⟩ := bind_ok h
  obtain ⟨x, hx, -, rfl⟩ := meaning_of_bind h
  have hroot : ∀ item, EdmType.entity type.fullName ≠ .collection item := nofun
  exact (orderly_meaning hroot e (Expr.orderly_of_parse he) hx).1

/-- An accepted text has been bound, and the tree is that of the bound expression. -/
theorem Tree.ofText_ok {filter : String} {schema : Schema} {type : String} {options : Options} {t : Tree}
    (h : ofText filter schema type options = .ok t) : ∃ e, schema.requireType type = .ok e ∧
      bindText filter schema e options = .ok t.bound ∧ ofBound filter t.bound schema options = .ok t := by
  unfold ofText ofTextWith at h
  obtain ⟨e, he, h⟩ := bind_ok h
  have he := mapError_ok he
  refine of_ite h (fun h => ?_) fun h => ?_
  · cases h
  · obtain ⟨b, hb, h⟩ := bind_ok h
    have hb := mapError_ok hb
    obtain ⟨-, rfl⟩ := ofBound_eq_ok_iff.mp h
    exact ⟨e, he, hb, h⟩

theorem Token.readFrom_of_blank {cs : List Char} (h : allBlank cs = true) (position : Nat) :
    readFrom 0 position cs = .ok [] := by
  induction cs generalizing position with
  | nil => rfl
  | cons c cs ih =>
    obtain ⟨hc, hcs⟩ := Bool.and_eq_true_iff.mp h
    rw [readFrom, if_pos hc, ih hcs]

/-- A blank text has no tokens, so it writes no expression. -/
theorem Expr.not_blank_of_parse {text : String} {limit : Nat} {e : Expr} (h : parse text limit = .ok e) :
    allBlank text.toList = false := by
  refine Bool.eq_false_iff.mpr fun hb => ?_
  rw [parse, Token.read, ok_bind (Token.readFrom_of_blank hb 0)] at h
  cases h

theorem Tree.ofText_of_bindText {filter : String} {schema : Schema} {type : String} {e : Element} {options : Options}
    {b : Bound} (he : schema.requireType type = .ok e) (hb : bindText filter schema e options = .ok b) :
    ofText filter schema type options = ofBound filter b schema options := by
  obtain ⟨x, hx, -⟩ := bind_ok hb
  rw [ofText, ofTextWith, he, Expr.not_blank_of_parse hx]
  exact ok_bind (congrArg (Except.mapError _) hb) _

end FilterGuard
