import FilterGuard.Proofs.Links
import FilterGuard.Proofs.Names
import FilterGuard.Tree.Inventory

/-!
# Inventories of expressions

The operators, the properties, and the operators around each property, read off
an expression from the outside in, without nodes and links. The inventory of a
tree says the same.
-/

namespace FilterGuard
open Text

/-! ## Reading an expression -/

/-- The operators of an expression in pre-order. The arguments of a function have none. -/
def Bound.operatorNames : Bound → List String
  | convert source _ => source.operatorNames
  | unary op operand => op.symbol :: operand.operatorNames
  | binary op left right => op.symbol :: (left.operatorNames ++ right.operatorNames)
  | within item candidates => "in" :: (item.operatorNames ++ candidates.operatorNames)
  | call function _ => [fold function]
  | quantified quantifier _ _ body => quantifier.symbol :: body.operatorNames
  | _ => []

/-- The operand itself, if it stands for a property. -/
def Bound.subject? (b : Bound) : Option Bound :=
  match b with
  | access .property _ _ | access .dynamic _ _ | access .complex _ _ | var _ _ => some b
  | _ => none

def Bound.property? (scope : Option String) (b : Bound) : Option String :=
  (b.subject?.bind (path scope)).filter (· ≠ "")

/-- An operand with the operators around it, innermost first. -/
structure Leaf where
  property : Option String
  around : List String
  deriving DecidableEq, Repr

/-- The operands of an expression in pre-order, the arguments of a function as
one that refers to what the first of them does. -/
def Bound.leaves (scope : Option String) (around : List String) (b : Bound) : List Leaf :=
  match b with
  | convert source _ => source.leaves scope around
  | unary op operand => operand.leaves scope (op.symbol :: around)
  | binary op left right =>
    left.leaves scope (op.symbol :: around) ++ right.leaves scope (op.symbol :: around)
  | within item candidates => item.leaves scope ("in" :: around) ++ candidates.leaves scope ("in" :: around)
  | call function args => [⟨(args.head?.bind (Bound.path scope)).filter (· ≠ ""), fold function :: around⟩]
  | quantified quantifier source _ body =>
    body.leaves ((source.path scope).or scope) (quantifier.symbol :: around)
  | b => [⟨b.property? scope, around⟩]

def Leaf.refersTo (property : String) (l : Leaf) : Bool :=
  l.property.any fun p => sameName p property

def levels : List Node → Nat
  | [] => 0
  | n :: ns => n.level + levels ns

/-! ## Reading the nodes -/

theorem path_unconverted (scope : Option String) (b : Bound) : b.unconverted.path scope = b.path scope := by
  fun_induction Bound.unconverted b with
  | case1 source _ ih => exact ih
  | case2 => rfl

theorem operandText_of_path {scope : Option String} {b : Bound} {path : String} (hp : b.path scope = some path) :
    b.operandText scope = path := by
  rw [← path_unconverted] at hp
  unfold Bound.operandText
  generalize b.unconverted = u at hp ⊢
  cases u <;> simp_all [Bound.path]

theorem named_eq (kind : OperandKind) {text : String} {path : Option String} (hp : path = some text) :
    Content.named kind text = .operand kind [text] (path.filter (· ≠ "")) := by
  unfold Content.named
  by_cases ht : text = "" <;> simp [hp, ht, Option.filter]

theorem ofLeaf_access (scope : Option String) (sort : Access) (owner : Option Bound) (name : String) :
    Content.ofLeaf scope (.access sort owner name) =
      .operand (Content.kindOfAccess sort) [(Bound.access sort owner name).operandText scope]
        ((Bound.access sort owner name).property? scope) := by
  have ht := @operandText_of_path scope (.access sort owner name) _ rfl
  cases sort with
  | property | dynamic | complex => exact named_eq _ (congrArg some ht.symm)
  | navigation | collectionProperty | collectionComplex | collectionNavigation => rfl

theorem ofLeaf_var (scope : Option String) (name : String) (type : EdmType) :
    Content.ofLeaf scope (.var name type) =
      .operand .var [(Bound.var name type).operandText scope] ((Bound.var name type).property? scope) := by
  have ht := @operandText_of_path scope (.var name type) _ rfl
  exact named_eq _ (congrArg some ht.symm)

theorem operatorNames_eq (b : Bound) : ∀ (scope : Option String) (parent : Option Nat) (level id : Nat),
    ((Outline.ofBound scope b).list parent level id).filterMap Node.operator? = b.operatorNames := by
  induction b using Bound.nodeInduction with
  | convert source target ih => exact ih
  | unary op operand ih => exact fun scope _ _ _ => congrArg (op.symbol :: ·) (ih scope _ _ _)
  | binary op left right ihl ihr =>
    intro scope parent level id
    show op.symbol :: List.filterMap Node.operator? (_ ++ _) = _
    rw [List.filterMap_append, ihl, ihr, Bound.operatorNames]
  | within item candidates ihi ihc =>
    intro scope parent level id
    show "in" :: List.filterMap Node.operator? (_ ++ _) = _
    rw [List.filterMap_append, ihi, ihc, Bound.operatorNames]
  | quantified quantifier source v body ih =>
    exact fun _ _ _ _ => congrArg (quantifier.symbol :: ·) (ih _ _ _ _)
  | access sort owner name =>
    intro scope parent level id
    rw [Outline.ofBound_access, ofLeaf_access]
    rfl
  | _ => exact fun _ _ _ _ => rfl

/-- The operand at a node, given the nodes above it. -/
def Leaf.ofNode? (e : Node × List Node) : Option Leaf :=
  match e.1.content with
  | .operator _ => none
  | .operand _ _ property => some ⟨property, e.2.filterMap Node.operator?⟩

theorem leaves_eq (b : Bound) : ∀ (scope : Option String) (above : List Node) (id : Nat),
    ((Outline.ofBound scope b).tracked above id).filterMap Leaf.ofNode? =
      b.leaves scope (above.filterMap Node.operator?) := by
  induction b using Bound.nodeInduction with
  | convert source target ih => exact ih
  | unary op operand ih => exact fun scope _ _ => ih scope _ _
  | binary op left right ihl ihr =>
    intro scope above id
    show List.filterMap Leaf.ofNode? (_ ++ _) = _
    rw [List.filterMap_append, ihl, ihr]
    rfl
  | within item candidates ihi ihc =>
    intro scope above id
    show List.filterMap Leaf.ofNode? (_ ++ _) = _
    rw [List.filterMap_append, ihi, ihc]
    rfl
  | quantified quantifier source v body ih => exact fun _ _ _ => ih _ _ _
  | access sort owner name =>
    intro scope above id
    rw [Outline.ofBound_access, Outline.tracked, ofLeaf_access]
    rfl
  | var name type =>
    intro scope above id
    rw [Outline.ofBound_var, Outline.tracked, ofLeaf_var]
    rfl
  | _ => exact fun _ _ _ => rfl

/-! ## Gathering uses -/

/-- A property and the operators around one of its occurrences. -/
def Leaf.use? (l : Leaf) : Option (String × List String) :=
  l.property.map fun property => (property, l.around)

/-- The map that puts the operators of every use under its property. -/
def gather (uses : List (String × List String)) (m : NameMap (List String)) : NameMap (List String) :=
  uses.foldl (fun m u => m.upsert u.1 fun old => old.getD [] ++ u.2) m

theorem get?_gather (name : String) : ∀ (uses : List (String × List String)) (m : NameMap (List String)),
    ((gather uses m).get? name).getD [] =
      (m.get? name).getD [] ++ (uses.filter fun u => sameName u.1 name).flatMap Prod.snd
  | [], m => by simp [gather]
  | u :: uses, m => by
    rw [gather, List.foldl_cons, ← gather, get?_gather name uses, NameMap.get?_upsert]
    cases hs : sameName u.1 name with
    | true => simp [hs, NameMap.get?_congr m hs]
    | false => simp [hs]

theorem around_of_uses (name : String) : ∀ ls : List Leaf,
    ((ls.filterMap Leaf.use?).filter fun u => sameName u.1 name).flatMap Prod.snd =
      (ls.filter (Leaf.refersTo name)).flatMap Leaf.around
  | [] => rfl
  | ⟨none, around⟩ :: ls => around_of_uses name ls
  | ⟨some property, around⟩ :: ls => by
    have ih := around_of_uses name ls
    cases hs : sameName property name <;> simp [Leaf.use?, Leaf.refersTo, hs] at ih ⊢ <;> exact ih

/-! ## Inventories of trees -/

theorem property?_of_tracked (e : Node × List Node) :
    e.1.property? = (Leaf.ofNode? e).bind Leaf.property := by
  unfold Node.property? Leaf.ofNode?
  cases e.1.content <;> rfl

theorem around_ofNode? {e : Node × List Node} {l : Leaf} (h : Leaf.ofNode? e = some l) :
    l.around = e.2.filterMap Node.operator? := by
  unfold Leaf.ofNode? at h
  cases hc : e.1.content <;> rw [hc] at h <;> cases h
  rfl

theorem length_flatMap_around (name : String) : ∀ es : List (Node × List Node), (∀ e ∈ es, Outline.Grounded e) →
    (((es.filterMap Leaf.ofNode?).filter (Leaf.refersTo name)).flatMap Leaf.around).length =
      levels ((es.map Prod.fst).filter fun n => n.property?.any fun p => sameName p name)
  | [], _ => rfl
  | e :: es, hg => by
    have ih := length_flatMap_around name es fun e' he => hg e' (List.mem_cons_of_mem _ he)
    have hp := property?_of_tracked e
    cases ho : Leaf.ofNode? e with
    | none =>
      rw [ho, Option.bind_none] at hp
      rw [List.filterMap_cons_none ho, List.map_cons, List.filter_cons_of_neg (by simp [hp])]
      exact ih
    | some l =>
      rw [ho, Option.bind_some] at hp
      have hl : l.around.length = e.1.level := by
        have h := hg e (List.mem_cons_self ..)
        rw [around_ofNode? ho, h.level, List.length_filterMap_eq_countP, List.countP_eq_length]
        exact h.operators
      rw [List.filterMap_cons_some ho, List.map_cons]
      cases hr : Leaf.refersTo name l with
      | false =>
        rw [List.filter_cons_of_neg (by simp [hr]), List.filter_cons_of_neg (by rw [hp]; exact Bool.eq_false_iff.mp hr)]
        exact ih
      | true =>
        rw [List.filter_cons_of_pos hr, List.filter_cons_of_pos (by rw [hp]; exact hr), List.flatMap_cons,
          List.length_append, levels, hl, ih]

/-- A map of uses with the use at a node put in. -/
def putNode (m : NameMap (List String)) (u : Node × List String) : NameMap (List String) :=
  match u.1.property? with
  | none => m
  | some property => m.upsert property fun old => old.getD [] ++ u.2

theorem putNode_eq (m : NameMap (List String)) (e : Node × List Node) :
    putNode m (e.1, e.2.filterMap Node.operator?) =
      match (Leaf.ofNode? e).bind Leaf.use? with
      | some u => m.upsert u.1 fun old => old.getD [] ++ u.2
      | none => m := by
  unfold putNode
  rw [property?_of_tracked]
  cases ho : Leaf.ofNode? e with
  | none => rfl
  | some l =>
    rw [← around_ofNode? ho, Option.bind_some, Option.bind_some, Leaf.use?]
    cases l.property <;> rfl

namespace Tree

variable {t : Tree} {b : Bound} (h : t.Has (.ofBound none b))
include h

theorem operators_eq : t.inventory.operators = b.operatorNames := by
  show t.preOrder.filterMap Node.operator? = _
  rw [preOrder_eq h, operatorNames_eq]

theorem preOrder_eq_map_fst : t.preOrder = ((Outline.ofBound none b).tracked [] 0).map Prod.fst := by
  rw [preOrder_eq h, Outline.map_fst_tracked]
  rfl

theorem properties_eq : t.preOrder.filterMap Node.property? = (b.leaves none []).filterMap Leaf.property := by
  have hl : _ = b.leaves none [] := leaves_eq b none [] 0
  rw [preOrder_eq_map_fst h, List.filterMap_map, ← hl, List.filterMap_filterMap]
  exact congrArg (List.filterMap · _) (funext property?_of_tracked)

theorem propertyOperators_eq :
    t.propertyOperators = gather ((b.leaves none []).filterMap Leaf.use?) .empty := by
  have hl : _ = b.leaves none [] := leaves_eq b none [] 0
  have hp : t.preOrder.map (fun n => (n, t.enclosing n.id)) =
      ((Outline.ofBound none b).tracked [] 0).map fun e => (e.1, e.2.filterMap Node.operator?) := by
    rw [preOrder_eq_map_fst h, List.map_map]
    refine List.map_congr_left fun e he => ?_
    simp only [Function.comp_apply, enclosing, ancestors_eq h he]
  calc t.propertyOperators
      = (t.preOrder.map fun n => (n, t.enclosing n.id)).foldl putNode .empty := by
        rw [List.foldl_map]
        rfl
    _ = gather ((b.leaves none []).filterMap Leaf.use?) .empty := by
        rw [hp, List.foldl_map, ← hl, List.filterMap_filterMap, gather, List.foldl_filterMap]
        congr 1
        funext m e
        rw [putNode_eq]
        cases (Leaf.ofNode? e).bind Leaf.use? <;> rfl

theorem operatorsFor_eq (name : String) :
    t.inventory.operatorsFor name =
      ((b.leaves none []).filter (Leaf.refersTo name)).flatMap Leaf.around := by
  show (t.propertyOperators.get? name).getD [] = _
  rw [propertyOperators_eq h, get?_gather, around_of_uses]
  rfl

theorem length_operatorsFor (name : String) :
    (t.inventory.operatorsFor name).length =
      levels (t.preOrder.filter fun n => n.property?.any fun p => sameName p name) := by
  have hl : _ = b.leaves none [] := leaves_eq b none [] 0
  rw [operatorsFor_eq h, preOrder_eq_map_fst h, ← hl]
  exact length_flatMap_around name _ (Outline.grounded_tracked _ [] 0 (Nat.le_refl _) (by simp))

theorem keys_propertyOperators : t.propertyOperators.keys = firstSpellings t.inventory.properties := by
  show _ = firstSpellings (t.preOrder.filterMap Node.property?)
  have hu : (b.leaves none []).filterMap (fun l => l.use?.map Prod.fst) =
      (b.leaves none []).filterMap Leaf.property :=
    congrArg (List.filterMap · _) (funext fun l => by cases hp : l.property <;> simp [Leaf.use?, hp])
  rw [propertyOperators_eq h, gather, NameMap.keys_foldl_upsert (fun used old => old.getD [] ++ used),
    properties_eq h, List.map_filterMap, hu]
  exact List.filter_eq_self.mpr fun _ _ => rfl

end Tree

/-- The inventory of a tree is that of its expression: operators and properties in
pre-order, and around a property all the operators above each of its occurrences. -/
theorem inventory_ofBound {expression : String} {b : Bound} {schema : Schema} {options : Options} {t : Tree}
    (h : Tree.ofBound expression b schema options = .ok t) :
    t.inventory.operators = b.operatorNames ∧
    t.inventory.properties = (b.leaves none []).filterMap Leaf.property ∧
    (∀ name, t.inventory.operatorsFor name =
      ((b.leaves none []).filter (Leaf.refersTo name)).flatMap Leaf.around) ∧
    (∀ name, (t.inventory.operatorsFor name).length =
      levels (t.preOrder.filter fun n => n.property?.any fun p => sameName p name)) ∧
    t.inventory.propertyOperators.keys = firstSpellings t.inventory.properties := by
  have ht := Tree.has_ofBound h
  exact ⟨Tree.operators_eq ht, Tree.properties_eq ht, Tree.operatorsFor_eq ht, Tree.length_operatorsFor ht,
    Tree.keys_propertyOperators ht⟩

/-- `Logins/any(x: x/name eq null and not StartsWith(x/NAME, 'a'))`, bound by hand. -/
def anyLogin : Bound :=
  let login : Option Bound := some (.var "x" (.complex "N.Login"))
  .quantified .any (.access .collectionComplex (some (.var Bound.instanceName (.entity "N.T"))) "Logins") (some "x")
    (.binary .and (.binary .eq (.access .property login "name") (.const .null))
      (.unary .not (.call "StartsWith" [.access .property login "NAME", .const (.string "a")])))

theorem inventory_anyLogin :
    ∃ t, Tree.ofBound "" anyLogin ⟨[]⟩ {} = .ok t ∧
      t.inventory.operators = ["any", "and", "eq", "not", "startswith"] ∧
      t.inventory.properties = ["Logins/name", "Logins/NAME"] ∧
      t.inventory.operatorsFor "logins/Name" = ["eq", "and", "any", "startswith", "not", "and", "any"] ∧
      t.inventory.propertyOperators.keys = ["Logins/name"] := by
  have h : Tree.ofBound "" anyLogin ⟨[]⟩ {} = .ok _ := Tree.ofBound_eq_ok_iff.mpr ⟨by decide, rfl⟩
  obtain ⟨ho, hp, hf, -, hk⟩ := inventory_ofBound h
  refine ⟨_, h, ho.trans (by decide +kernel), hp.trans (by decide +kernel), (hf _).trans (by decide +kernel), ?_⟩
  rw [hk, hp]
  decide +kernel

end FilterGuard
