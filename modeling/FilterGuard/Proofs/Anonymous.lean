import FilterGuard.Proofs.Outline
import FilterGuard.Proofs.Variables

/-!
# Binding without the names of variables

Binding looks at the types of variables and never at their names. What it makes of
operands is the same without the names in them, so expressions that are alike are
bound to the same expression but for its names.
-/

namespace FilterGuard
open Bound (instanceName)

namespace Bound

/-- The filtered instance keeps its name, a variable has none. -/
def anonymousName (name : String) : String :=
  if name = instanceName then instanceName else ""

mutual

/-- The expression without the names of its variables. -/
def anonymous : Bound → Bound
  | const value => const value
  | convert source target => convert source.anonymous target
  | unary op operand => unary op operand.anonymous
  | binary op left right => binary op left.anonymous right.anonymous
  | call function args => call function (anonymousEach args)
  | within item candidates => within item.anonymous candidates.anonymous
  | quantified quantifier source v body =>
    quantified quantifier source.anonymous (v.map anonymousName) body.anonymous
  | access sort none name => access sort none name
  | access sort (some owner) name => access sort (some owner.anonymous) name
  | list items => list (anonymousEach items)
  | var name type => var (anonymousName name) type

def anonymousEach : List Bound → List Bound
  | [] => []
  | b :: bs => b.anonymous :: anonymousEach bs

end

theorem anonymousEach_eq_map : ∀ bs : List Bound, anonymousEach bs = bs.map anonymous
  | [] => rfl
  | b :: bs => by rw [anonymousEach, anonymousEach_eq_map bs, List.map_cons]

theorem anonymous_unconverted (b : Bound) : b.anonymous.unconverted = b.unconverted.anonymous := by
  induction b using Bound.nodeInduction with
  | convert source target ih => exact ih
  | access sort owner name => cases owner <;> rfl
  | _ => simp [anonymous, unconverted]

end Bound

namespace Binding

def Typed.anonymous (x : Typed) : Typed :=
  ⟨x.node.anonymous, x.type⟩

/-! ## Operators -/

theorem asEnum_anonymous (ctx : Context) (name operator : String) (x : Typed) :
    asEnum ctx name operator x.anonymous = (asEnum ctx name operator x).map Bound.anonymous := by
  unfold asEnum
  simp only [Typed.anonymous, Bound.anonymous_unconverted]
  generalize x.node.unconverted = u
  have other : ∀ (c : Prop) [Decidable c] (e : ExprError), (if c then .ok x.node.anonymous else .error e) =
      (if c then .ok x.node else .error e : Except ExprError Bound).map Bound.anonymous := by
    intro c _ e
    split <;> rfl
  cases u with
  | const value =>
    cases value with
    | string member =>
      simp only [Bound.anonymous]
      split
      · rw [map_map]
        rfl
      · rfl
    | _ => exact other _ _
  | access sort owner name => cases owner <;> exact other _ _
  | _ => exact other _ _

theorem promote_anonymous (operator : String) (left right : Typed) (a b : Primitive) :
    promote operator left.anonymous right.anonymous a b =
      (promote operator left right a b).map fun p => (p.1.anonymous, p.2.anonymous) := by
  unfold promote
  split
  · rfl
  · split
    · split <;> simp [Except.map, Typed.anonymous, Bound.anonymous]
    · rfl

theorem unify_anonymous (ctx : Context) (operator : String) (left right : Typed) :
    unify ctx operator left.anonymous right.anonymous =
      (unify ctx operator left right).map fun p => (p.1.anonymous, p.2.anonymous) := by
  have hm := asEnum_anonymous ctx
  have hp := promote_anonymous operator left right
  obtain ⟨l, tl⟩ := left
  obtain ⟨r, tr⟩ := right
  unfold unify
  simp only [Typed.anonymous] at hm hp ⊢
  split
  · rfl
  · rfl
  · rw [hm _ _ ⟨r, _⟩, map_map, map_map]
    rfl
  · rw [hm _ _ ⟨l, _⟩, map_map, map_map]
    rfl
  · split <;> rfl
  · exact hp _ _
  · rfl

theorem arithmetic_anonymous (op : BinaryOp) (left right : Typed) :
    arithmetic op left.anonymous right.anonymous = (arithmetic op left right).map Typed.anonymous := by
  obtain ⟨l, tl⟩ := left
  obtain ⟨r, tr⟩ := right
  unfold arithmetic
  simp only [Typed.anonymous]
  split
  · rfl
  · rw [apply_ite (Except.map Typed.anonymous)]
    rfl
  · rw [apply_ite (Except.map Typed.anonymous)]
    rfl
  · split
    · rw [apply_ite (Except.map Typed.anonymous), apply_ite (Except.map Typed.anonymous)]
      rfl
    · split <;> rfl
  · rfl

theorem flagTest_anonymous (ctx : Context) (left right : Typed) :
    flagTest ctx left.anonymous right.anonymous = (flagTest ctx left right).map Typed.anonymous := by
  obtain ⟨l, tl⟩ := left
  unfold flagTest
  simp only [asEnum_anonymous]
  simp only [Typed.anonymous]
  split
  · rw [map_map, map_map]
    rfl
  · rfl

theorem combine_anonymous (ctx : Context) (op : BinaryOp) (left right : Typed) :
    combine ctx op left.anonymous right.anonymous = (combine ctx op left right).map Typed.anonymous := by
  unfold combine
  rw [apply_ite (Except.map Typed.anonymous), apply_ite (Except.map Typed.anonymous),
    apply_ite (Except.map Typed.anonymous), flagTest_anonymous, arithmetic_anonymous, unify_anonymous, bind_map,
    map_bind, map_bind]
  simp only [map_bind]
  rfl

theorem combineUnary_anonymous (op : UnaryOp) (x : Typed) :
    combineUnary op x.anonymous = (combineUnary op x).map Typed.anonymous := by
  cases op with
  | not =>
    unfold combineUnary
    rw [map_bind]
    rfl
  | negate =>
    unfold combineUnary
    simp only
    rw [apply_ite (Except.map Typed.anonymous)]
    rfl

theorem asItem_anonymous (ctx : Context) (subject : Option EdmType) (x : Typed) :
    asItem ctx subject x.anonymous = (asItem ctx subject x).map Typed.anonymous := by
  unfold asItem
  simp only [asEnum_anonymous]
  obtain ⟨b, t⟩ := x
  simp only [Typed.anonymous]
  split
  · rfl
  · rfl
  · rw [map_map, map_map]
    rfl
  · rw [apply_ite (Except.map Typed.anonymous), apply_ite (Except.map Typed.anonymous)]
    rfl
  · rfl

theorem asArgument_anonymous (s : Signature) (index : Nat) (x : Typed) :
    asArgument s index x.anonymous = (asArgument s index x).map Typed.anonymous := by
  unfold asArgument
  rw [apply_ite (Except.map Typed.anonymous)]
  rfl

theorem property_anonymous (ctx : Context) (owner : Bound) (type name : String) :
    property ctx owner.anonymous type name = (property ctx owner type name).map Typed.anonymous := by
  unfold property
  split
  · rfl
  · split
    · rfl
    · rw [apply_ite (Except.map Typed.anonymous)]
      rfl
    · rfl

theorem member_anonymous (ctx : Context) (owner : Typed) (name : String) :
    member ctx owner.anonymous name = (member ctx owner name).map Typed.anonymous := by
  obtain ⟨b, t⟩ := owner
  unfold member
  simp only [Typed.anonymous]
  split
  · exact property_anonymous ..
  · exact property_anonymous ..
  · rfl

theorem list_anonymous (xs : List Typed) : list (xs.map Typed.anonymous) = (list xs).anonymous := by
  unfold list
  simp only [Typed.anonymous, Bound.anonymous, Bound.anonymousEach_eq_map, List.map_map, List.findSome?_map]
  rfl

theorem call_anonymous (s : Signature) (xs : List Typed) :
    call s (xs.map Typed.anonymous) = (call s xs).anonymous := by
  unfold call
  cases xs <;> simp [Typed.anonymous, Bound.anonymous, Bound.anonymousEach_eq_map]

theorem within_anonymous (item : Bound) (xs : List Typed) :
    truth (.within item.anonymous (.list ((xs.map Typed.anonymous).map Typed.node))) =
      (truth (.within item (.list (xs.map Typed.node)))).anonymous := by
  simp [truth, Typed.anonymous, Bound.anonymous, Bound.anonymousEach_eq_map]

/-! ## Expressions -/

/-- Scopes with the same types, whose variables are named by pairs. -/
inductive Renames : List (String × String) → Scope → Scope → Prop
  | nil : Renames [] [] []
  | cons {vs scope scope'} (v v' : String) (type : EdmType) (h : Renames vs scope scope') :
      Renames ((v, v') :: vs) ((v, type) :: scope) ((v', type) :: scope')

theorem resolve_alike {ctx : Context} {vs : List (String × String)} {scope scope' : Scope}
    (h : Renames vs scope scope')
    {name name' : String} (hn : name ≠ instanceName) (hn' : name' ≠ instanceName) (hr : Expr.Refers vs name name') :
    (resolve ctx scope' name').map Typed.anonymous = (resolve ctx scope name).map Typed.anonymous := by
  unfold resolve
  rw [if_neg hn, if_neg hn']
  induction h with
  | nil =>
    cases (hr : name = name')
    rfl
  | cons v v' type _ ih =>
    rcases hr with ⟨rfl, rfl⟩ | ⟨hv, hv', hr⟩
    · rw [List.find?_cons_of_pos (by simp), List.find?_cons_of_pos (by simp)]
      simp [Except.map, Typed.anonymous, Bound.anonymous, Bound.anonymousName, hn, hn']
    · rw [List.find?_cons_of_neg (by simpa using Ne.symm hv'), List.find?_cons_of_neg (by simpa using Ne.symm hv)]
      exact ih hr

theorem anonymous_eq {x x' : Typed} (h : x'.anonymous = x.anonymous) :
    x'.node.anonymous = x.node.anonymous ∧ x'.type = x.type := by
  simpa [Typed.anonymous] using h

theorem itemType_congr {quantifier : Quantifier} {x x' : Typed} (h : x'.anonymous = x.anonymous) :
    itemType quantifier x' = itemType quantifier x := by
  rw [itemType, itemType, (anonymous_eq h).2]

theorem requireBoolean_congr {place : BooleanPlace} {x x' : Typed} (h : x'.anonymous = x.anonymous) :
    requireBoolean place x' = requireBoolean place x := by
  rw [requireBoolean, requireBoolean, (anonymous_eq h).2]

open Expr (Alike AlikeEach)

theorem length_alike {vs : List (String × String)} : ∀ {es es' : List Expr},
    AlikeEach vs es es' → es'.length = es.length
  | _, _, .nil => rfl
  | _, _, .cons _ h => congrArg (· + 1) (length_alike h)

mutual

theorem meaning_alike (ctx : Context) : ∀ {vs : List (String × String)} {e e' : Expr}, Alike vs e e' →
    ∀ {scope scope' : Scope}, Renames vs scope scope' →
    (meaning ctx scope' e').map Typed.anonymous = (meaning ctx scope e).map Typed.anonymous
  | _, _, _, .literal _, _, _, _ => by rw [meaning, meaning]
  | _, _, _, .list h, _, _, hs => by
    rw [meaning, meaning]
    refine map_bind_congr (meanings_alike ctx h hs (fun _ _ => rfl) 0) fun xs xs' hx => ?_
    exact congrArg Except.ok (by rw [← list_anonymous, hx, list_anonymous])
  | _, _, _, .filtered, _, _, _ => by rw [meaning, meaning, resolve, resolve, if_pos rfl, if_pos rfl]
  | _, _, _, .name hn hn' hr, _, _, hs => by
    rw [meaning, meaning]
    exact resolve_alike hs hn hn' hr
  | _, _, _, .member name h, _, _, hs => by
    rw [meaning, meaning]
    refine map_bind_congr (meaning_alike ctx h hs) fun x x' hx => ?_
    rw [← member_anonymous, hx, member_anonymous]
  | _, _, _, .quantifiedEmpty quantifier h, _, _, hs => by
    rw [meaning, meaning]
    refine map_bind_congr (meaning_alike ctx h hs) fun x x' hx => ?_
    rw [itemType_congr hx]
    refine map_bind_same fun _ => ?_
    exact congrArg Except.ok (by simp [truth, Typed.anonymous, Bound.anonymous, (anonymous_eq hx).1])
  | _, _, _, .quantified quantifier v v' hv h hb, _, _, hs => by
    rw [meaning, meaning]
    refine map_bind_congr (meaning_alike ctx h hs) fun x x' hx => ?_
    rw [itemType_congr hx]
    refine map_bind_same fun item => ?_
    refine map_bind_congr (meaning_alike ctx hb (.cons v v' item hs)) fun y y' hy => ?_
    rw [requireBoolean_congr hy]
    refine map_bind_same fun _ => ?_
    have hn : Bound.anonymousName v' = Bound.anonymousName v := by
      unfold Bound.anonymousName
      simp only [hv]
    refine congrArg Except.ok ?_
    simp [truth, Typed.anonymous, Bound.anonymous, (anonymous_eq hx).1, (anonymous_eq hy).1, hn]
  | _, _, _, .call function h, _, _, hs => by
    rw [meaning, meaning, length_alike h]
    refine map_bind_same fun s => ?_
    refine map_bind_congr (meanings_alike ctx h hs (asArgument_anonymous s) 0) fun xs xs' hx => ?_
    exact congrArg Except.ok (by rw [← call_anonymous, hx, call_anonymous])
  | _, _, _, .unary op h, _, _, hs => by
    rw [meaning, meaning]
    refine map_bind_congr (meaning_alike ctx h hs) fun x x' hx => ?_
    rw [← combineUnary_anonymous, hx, combineUnary_anonymous]
  | _, _, _, .binary op hl hr, _, _, hs => by
    rw [meaning, meaning]
    refine map_bind_congr (meaning_alike ctx hl hs) fun x x' hx => ?_
    refine map_bind_congr (meaning_alike ctx hr hs) fun y y' hy => ?_
    rw [← combine_anonymous, hx, hy, combine_anonymous]
  | _, _, _, .within hi hc, _, _, hs => by
    have hm := meaning_alike ctx hc hs
    rw [meaning, meaning]
    refine map_bind_congr (meaning_alike ctx hi hs) fun x x' hx => ?_
    have hnode := (anonymous_eq hx).1
    have htype := (anonymous_eq hx).2
    rw [show requireSingle x' = requireSingle x by rw [requireSingle, requireSingle, htype], htype]
    refine map_bind_same fun _ => ?_
    cases hc with
    | list h =>
      refine map_bind_congr (meanings_alike ctx h hs (fun _ => asItem_anonymous ctx x.type) 0) fun ys ys' hy => ?_
      exact congrArg Except.ok (by rw [← within_anonymous, ← within_anonymous, hnode, hy])
    | literal value =>
      refine map_bind_same fun y => map_bind_same fun z => ?_
      exact congrArg Except.ok (by simp [truth, Typed.anonymous, Bound.anonymous, hnode])
    | _ =>
      refine map_bind_congr hm fun y y' hy => ?_
      rw [show requireCollection y' = requireCollection y by
        rw [requireCollection, requireCollection, (anonymous_eq hy).2]]
      refine map_bind_same fun _ => ?_
      exact congrArg Except.ok (by simp [truth, Typed.anonymous, Bound.anonymous, hnode, (anonymous_eq hy).1])

theorem meanings_alike (ctx : Context) : ∀ {vs : List (String × String)} {es es' : List Expr}, AlikeEach vs es es' →
    ∀ {scope scope' : Scope}, Renames vs scope scope' → ∀ {finish : Nat → Typed → Except ExprError Typed},
    (∀ i x, finish i x.anonymous = (finish i x).map Typed.anonymous) → ∀ index : Nat,
    (meanings ctx scope' finish index es').map (List.map Typed.anonymous) =
      (meanings ctx scope finish index es).map (List.map Typed.anonymous)
  | _, _, _, .nil, _, _, _, _, _, _ => by rw [meanings, meanings]
  | _, _, _, .cons h hes, _, _, hs, _, hf, index => by
    rw [meanings, meanings]
    refine map_bind_congr (meaning_alike ctx h hs) fun x x' hx => ?_
    refine map_bind_congr (by rw [← hf, hx, hf]) fun y y' hy => ?_
    refine map_bind_congr (meanings_alike ctx hes hs hf (index + 1)) fun ys ys' hys => ?_
    exact congrArg Except.ok (by rw [List.map_cons, List.map_cons, hy, hys])

end

end Binding

end FilterGuard
