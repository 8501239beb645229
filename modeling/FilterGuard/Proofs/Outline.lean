import FilterGuard.Tree

/-!
# Outlines

A filter as a tree of what its nodes hold, and the nodes of that tree in
pre-order with the numbers they get. Growing an array by a filter appends
exactly this list, unless the filter nests too deep, which is its only failure.
-/

namespace FilterGuard

inductive Outline where
  | leaf (scope : Option String) (content : Content) (text : String)
  | one (scope : Option String) (kind : OperatorKind) (text : String) (below : Outline)
  | two (scope : Option String) (kind : OperatorKind) (text : String) (left right : Outline)

/-- How deep a filter nests. The left side of a binary operator that is one
itself is as deep as the operator above it. -/
def Bound.nest : Bound → Nat
  | convert source _ => source.nest
  | unary _ operand => operand.nest + 1
  | binary _ left right => max (if left.isBinary then left.nest else left.nest + 1) (right.nest + 1)
  | within item candidates => max item.nest candidates.nest + 1
  | call .. => 1
  | quantified _ _ _ body => body.nest + 1
  | _ => 0

/-- Induction along nodes, which passes over arguments, items, owners and collections. -/
@[elab_as_elim] theorem Bound.nodeInduction {motive : Bound → Prop} (const : ∀ value, motive (.const value))
    (convert : ∀ source target, motive source → motive (.convert source target))
    (unary : ∀ op operand, motive operand → motive (.unary op operand))
    (binary : ∀ op left right, motive left → motive right → motive (.binary op left right))
    (call : ∀ function args, motive (.call function args))
    (within : ∀ item candidates, motive item → motive candidates → motive (.within item candidates))
    (quantified : ∀ quantifier source v body, motive body → motive (.quantified quantifier source v body))
    (access : ∀ sort owner name, motive (.access sort owner name)) (list : ∀ items, motive (.list items))
    (var : ∀ name type, motive (.var name type)) (b : Bound) : motive b :=
  @Bound.rec motive (fun _ => True) (fun _ => True) const convert unary binary
    (fun function args _ => call function args) within
    (fun quantifier source v body _ => quantified quantifier source v body)
    (fun sort owner name _ => access sort owner name) (fun items _ => list items) var
    trivial (fun _ _ _ _ => trivial) trivial (fun _ _ => trivial) b

namespace Outline

def ofBound (scope : Option String) (b : Bound) : Outline :=
  match b with
  | .convert source _ => ofBound scope source
  | .unary op operand => .one scope (.unary op) b.render (ofBound scope operand)
  | .binary op left right => .two scope (.binary op) b.render (ofBound scope left) (ofBound scope right)
  | .within item candidates => .two scope .within b.render (ofBound scope item) (ofBound scope candidates)
  | .call function args =>
    .one scope (.call (Text.fold function)) b.render
      (.leaf scope (.ofArguments scope args) (", ".intercalate (args.map Bound.render)))
  | .quantified quantifier source _ body =>
    .one scope (.quantified quantifier) b.render (ofBound ((source.path scope).or scope) body)
  | b => .leaf scope (.ofLeaf scope b) b.render

theorem ofBound_access (scope : Option String) (sort : Access) (owner : Option Bound) (name : String) :
    ofBound scope (.access sort owner name) =
      .leaf scope (.ofLeaf scope (.access sort owner name)) (Bound.access sort owner name).render := rfl

theorem ofBound_var (scope : Option String) (name : String) (type : EdmType) :
    ofBound scope (.var name type) = .leaf scope (.ofLeaf scope (.var name type)) (Bound.var name type).render := rfl

def size : Outline → Nat
  | leaf .. => 1
  | one _ _ _ below => below.size + 1
  | two _ _ _ left right => left.size + right.size + 1

/-- The nodes in pre-order, numbered from `id`. -/
def list (parent : Option Nat) (level id : Nat) : Outline → List Node
  | leaf scope content text => [⟨id, parent, none, none, level, scope, content, text⟩]
  | one scope kind text below =>
    ⟨id, parent, some (id + 1), none, level, scope, .operator kind, text⟩ ::
      below.list (some id) (level + 1) (id + 1)
  | two scope kind text left right =>
    ⟨id, parent, some (id + 1), some (id + 1 + left.size), level, scope, .operator kind, text⟩ ::
      (left.list (some id) (level + 1) (id + 1) ++
        right.list (some id) (level + 1) (id + 1 + left.size))

@[simp] theorem length_list (o : Outline) : ∀ (parent : Option Nat) (level id : Nat),
    (o.list parent level id).length = o.size := by
  induction o with
  | leaf => intros; rfl
  | one _ _ _ _ ih => intros; simp [list, size, ih]
  | two _ _ _ _ _ ihl ihr => intros; simp [list, size, ihl, ihr]

end Outline

/-! ## Growing by an outline -/

theorem ofLeaf_operand (scope : Option String) (b : Bound) :
    ∃ kind values property, Content.ofLeaf scope b = .operand kind values property := by
  unfold Content.ofLeaf Content.named
  split
  · simp only []
    split <;> exact ⟨_, _, _, rfl⟩
  all_goals exact ⟨_, _, _, rfl⟩

/-- Whether the parent of a place is among the nodes. -/
def Place.In (p : Place) (nodes : Array Node) : Prop :=
  ∀ parent, p.parent = some parent → parent.1 < nodes.size

@[simp] theorem size_link (parent : Option (Nat × Branch)) (child : Nat) (nodes : Array Node) :
    (link parent child nodes).size = nodes.size := by
  unfold link
  split <;> simp

theorem link_push {p : Place} {nodes : Array Node} (h : p.In nodes) (child : Nat) (n : Node) :
    link p.parent child (nodes.push n) = (link p.parent child nodes).push n := by
  unfold link
  cases hp : p.parent with
  | none => rfl
  | some parent =>
    have hlt := h parent hp
    apply Array.ext
    · simp
    · intro i hi hi'
      simp only [Array.getElem_modify, Array.getElem_push, Array.size_modify]
      by_cases hn : i < nodes.size
      · simp only [dif_pos hn]
      · simp only [dif_neg hn, if_neg (show parent.1 ≠ i by omega)]

/-- A child is put into a node that others have followed. -/
theorem link_append (nodes : Array Node) (n : Node) (l : List Node) (side : Branch) (child : Nat) :
    link (some (nodes.size, side)) child (nodes.push n ++ l.toArray) =
      nodes.push (n.withChild side child) ++ l.toArray := by
  have h : nodes.size < (nodes.toList ++ n :: l).length := by simp
  have hd : (nodes.toList ++ n :: l).drop (nodes.size + 1) = l := by
    simp [List.drop_append, List.drop_of_length_le]
  unfold link
  apply Array.ext'
  simp [List.modify_eq_take_cons_drop h, hd]

/-- What is pending at the place `p`, as a node without children that gets the number `id`. -/
def Origin.node (o : Origin) (p : Place) (level id : Nat) : Node :=
  ⟨id, p.parent.map Prod.fst, none, none, level, p.scope, o.content p.scope, o.text⟩

theorem build_step {limit fuel : Nat} {o : Origin} {p : Place} {stack : List Pending} {nodes linked : Array Node}
    (h : p.In nodes) (hl : link p.parent nodes.size nodes = linked) :
    build limit (fuel + 1) (⟨o, p⟩ :: stack) nodes =
      if p.nesting < limit then
        build limit fuel (o.parts linked.size p ++ stack) (linked.push (o.node p (p.level nodes) linked.size))
      else none := by
  subst hl
  rw [build, Pending.add, link_push h, size_link]
  rfl

/-- Whether to build what is pending at a place is to append the nodes of an
outline, or to fail because they are nested too deep. -/
def Appends (limit : Nat) (o : Origin) (p : Place) (count depth : Nat) (out : Outline) : Prop :=
  ∀ fuel stack nodes linked, p.In nodes → link p.parent nodes.size nodes = linked →
    build limit (fuel + count) (⟨o, p⟩ :: stack) nodes =
      if p.nesting + depth < limit then
        build limit fuel stack
          (linked ++ (out.list (p.parent.map Prod.fst) (p.level nodes) linked.size).toArray)
      else none

theorem appends_leaf (limit : Nat) {o : Origin} {p : Place} (hp : ∀ id, o.parts id p = []) :
    Appends limit o p 1 0 (.leaf p.scope (o.content p.scope) o.text) := by
  intro fuel stack nodes linked hin hl
  rw [build_step hin hl, hp, Nat.add_zero, List.nil_append]
  simp [Outline.list, Origin.node]

/-- A part of the last node before `l` is built behind `l`. -/
theorem Appends.below {limit : Nat} {o : Origin} {side : Branch} {scope : Option String}
    {nesting count depth : Nat} {out : Outline} {linked : Array Node}
    (h : Appends limit o ⟨some (linked.size, side), scope, nesting⟩ count depth out)
    (fuel : Nat) (stack : List Pending) (n : Node) (l : List Node) :
    build limit (fuel + count) (⟨o, some (linked.size, side), scope, nesting⟩ :: stack) (linked.push n ++ l.toArray) =
      if nesting + depth < limit then
        build limit fuel stack (linked.push (n.withChild side (linked.size + 1 + l.length)) ++
          (l ++ out.list (some linked.size) (n.level + 1) (linked.size + 1 + l.length)).toArray)
      else none := by
  have hin : (⟨some (linked.size, side), scope, nesting⟩ : Place).In (linked.push n ++ l.toArray) := by
    intro parent hp
    cases hp
    rw [Array.size_append, Array.size_push]
    omega
  have hlv : (⟨some (linked.size, side), scope, nesting⟩ : Place).level (linked.push n ++ l.toArray) = n.level + 1 := by
    have hn : (linked.push n ++ l.toArray)[linked.size]? = some n := by
      rw [Array.getElem?_append_left (by simp), Array.getElem?_push_size]
    simp only [Place.level, Option.elim_some, hn]
  have hs : ∀ m : Node, (linked.push m ++ l.toArray).size = linked.size + 1 + l.length :=
    fun m => by simp [Nat.add_assoc, Nat.add_comm 1]
  rw [h fuel stack _ _ hin (link_append ..), hlv, hs, hs, Array.append_assoc, List.append_toArray l]
  rfl

section
variable {limit : Nat} {o : Origin} {p : Place} {kind : OperatorKind}
  (hk : o.content p.scope = .operator kind)
include hk

theorem appends_one {a count depth whole : Nat} {below : Origin} {scope : Option String} {out : Outline}
    (hp : ∀ id, o.parts id p = [⟨below, some (id, .left), scope, a⟩])
    (hb : ∀ id, Appends limit below ⟨some (id, .left), scope, a⟩ count depth out)
    (hd : p.nesting + whole < limit ↔ p.nesting < limit ∧ a + depth < limit) :
    Appends limit o p (count + 1) whole (.one p.scope kind o.text out) := by
  intro fuel stack nodes linked hin hl
  rw [← Nat.add_assoc, build_step hin hl, hp, List.singleton_append]
  have hb := (hb linked.size).below fuel stack (o.node p (p.level nodes) linked.size) []
  rw [Array.append_empty] at hb
  by_cases hn : p.nesting < limit
  · rw [if_pos hn, hb]
    simp [hd, hn, Outline.list, Origin.node, Node.withChild, hk]
  · rw [if_neg hn, if_neg (by omega)]

theorem appends_two {a b countLeft countRight depthLeft depthRight whole : Nat} {left right : Origin}
    {outLeft outRight : Outline}
    (hp : ∀ id, o.parts id p = [⟨left, some (id, .left), p.scope, a⟩, ⟨right, some (id, .right), p.scope, b⟩])
    (hl : ∀ id, Appends limit left ⟨some (id, .left), p.scope, a⟩ countLeft depthLeft outLeft)
    (hr : ∀ id, Appends limit right ⟨some (id, .right), p.scope, b⟩ countRight depthRight outRight)
    (hd : p.nesting + whole < limit ↔ p.nesting < limit ∧ a + depthLeft < limit ∧ b + depthRight < limit) :
    Appends limit o p (countLeft + countRight + 1) whole (.two p.scope kind o.text outLeft outRight) := by
  intro fuel stack nodes linked hin hlinked
  have hf : fuel + (countLeft + countRight + 1) = fuel + countRight + countLeft + 1 := by omega
  rw [hf, build_step hin hlinked, hp, List.cons_append, List.singleton_append]
  have hl := (hl linked.size).below (fuel + countRight) (⟨right, some (linked.size, .right), p.scope, b⟩ :: stack)
    (o.node p (p.level nodes) linked.size) []
  rw [Array.append_empty] at hl
  by_cases hn : p.nesting < limit
  · rw [if_pos hn, hl]
    by_cases ha : a + depthLeft < limit
    · rw [if_pos ha, (hr linked.size).below]
      simp [hd, hn, ha, Outline.list, Origin.node, Node.withChild, hk]
    · rw [if_neg ha, if_neg (by omega)]
  · rw [if_neg hn, if_neg (by omega)]

end

theorem build_convert (limit fuel : Nat) (source : Bound) (target : Primitive) (p : Place) (stack : List Pending)
    (nodes : Array Node) :
    build limit fuel (⟨.expression (.convert source target), p⟩ :: stack) nodes =
      build limit fuel (⟨.expression source, p⟩ :: stack) nodes := by
  cases fuel <;> rfl

theorem appends_expression (limit : Nat) (b : Bound) : ∀ p : Place,
    Appends limit (.expression b) p b.nodeCount b.nest (.ofBound p.scope b) := by
  induction b using Bound.nodeInduction with
  | convert source target ih =>
    intro p fuel stack nodes linked hin hl
    rw [build_convert]
    exact ih p fuel stack nodes linked hin hl
  | unary op operand ih =>
    intro p
    refine appends_one rfl (fun _ => rfl) (fun _ => ih _) ?_
    simp only [Bound.nest]
    omega
  | binary op left right ihl ihr =>
    -- The left side of a chain starts at the nesting of the operator, any other one deeper.
    intro p
    refine appends_two (a := if left.isBinary then p.nesting else p.nesting + 1) (b := p.nesting + 1) rfl
      (fun id => ?_) (fun _ => ihl _) (fun _ => ihr _) ?_
    · simp only [Origin.parts, Bound.unconverted]
      cases left.isBinary <;> rfl
    · simp only [Bound.nest]
      cases left.isBinary <;> simp only [Bool.false_eq_true, if_false, if_true] <;> omega
  | within item candidates ihi ihc =>
    intro p
    refine appends_two rfl (fun _ => rfl) (fun _ => ihi _) (fun _ => ihc _) ?_
    simp only [Bound.nest]
    omega
  | call function args =>
    intro p
    refine appends_one rfl (fun _ => rfl) (fun _ => appends_leaf limit fun _ => rfl) ?_
    simp only [Bound.nest]
    omega
  | quantified quantifier source v body ih =>
    intro p
    refine appends_one (a := p.nesting + 1) rfl (fun _ => rfl) (fun _ => ih _) ?_
    simp only [Bound.nest]
    omega
  | const | access | list | var => exact fun p => appends_leaf limit fun _ => rfl

/-- The nodes of an expression are those of its outline, unless it nests too deep. -/
theorem grow_root (limit : Nat) (b : Bound) :
    grow limit .root b #[] =
      if b.nest < limit then some ((Outline.ofBound none b).list none 0 0).toArray else none := by
  have h := appends_expression limit b .root 0 [] #[] #[] nofun rfl
  rw [Nat.zero_add] at h
  rw [grow, h]
  simp [Place.root, Place.level, build]

theorem Tree.ofBound_eq_ok_iff {expression : String} {b : Bound} {schema : Schema} {options : Options}
    {t : Tree} : Tree.ofBound expression b schema options = .ok t ↔ b.nest < options.maxDepth ∧
      t = ⟨expression, b, ((Outline.ofBound none b).list none 0 0).toArray, schema.elements⟩ := by
  unfold Tree.ofBound
  rw [grow_root]
  by_cases hn : b.nest < options.maxDepth <;> simp [hn, eq_comm]

/-! ## What does not fit

Growing fails on account of what is pending, whatever nodes there are already.
-/

namespace Origin

def nest : Origin → Nat
  | expression b => b.nest
  | arguments _ => 0

def nodeCount : Origin → Nat
  | expression b => b.nodeCount
  | arguments _ => 1

end Origin

namespace Pending

/-- Whether something pending nests, from its place on, as deep as the limit or deeper. -/
def TooDeep (limit : Nat) (item : Pending) : Prop :=
  limit ≤ item.place.nesting + item.origin.nest

def nodeCount : List Pending → Nat
  | [] => 0
  | item :: stack => item.origin.nodeCount + nodeCount stack

theorem nodeCount_append (stack stack' : List Pending) :
    nodeCount (stack ++ stack') = nodeCount stack + nodeCount stack' := by
  induction stack with
  | nil => simp [nodeCount]
  | cons item stack ih => simp [nodeCount, ih, Nat.add_assoc]

theorem nodeCount_parts (id : Nat) (p : Place) (o : Origin) : nodeCount (o.parts id p) + 1 = o.nodeCount := by
  cases o with
  | arguments args => rfl
  | expression b =>
    induction b using Bound.nodeInduction with
    | convert source target ih => exact ih
    | unary | binary | within | quantified =>
      simp [Origin.parts, Bound.unconverted, nodeCount, Origin.nodeCount, Bound.nodeCount]
    | call | const | access | list | var => rfl

/-- One step: the place of what is taken from the stack is too deep, or a part of it is. -/
theorem tooDeep_iff (limit id : Nat) (o : Origin) (p : Place) :
    TooDeep limit ⟨o, p⟩ ↔ limit ≤ p.nesting ∨ ∃ part ∈ o.parts id p, part.TooDeep limit := by
  cases o with
  | arguments args => simp [TooDeep, Origin.parts, Origin.nest]
  | expression b =>
    induction b using Bound.nodeInduction with
    | convert source target ih => exact ih
    | unary | call | quantified =>
      simp only [TooDeep, Origin.parts, Origin.nest, Bound.unconverted, Bound.nest, Place.below, List.mem_singleton,
        exists_eq_left]
      omega
    | within item candidates =>
      simp only [TooDeep, Origin.parts, Origin.nest, Bound.unconverted, Bound.nest, Place.below, List.mem_cons,
        List.not_mem_nil, or_false, exists_eq_or_imp, exists_eq_left]
      omega
    | binary op left right =>
      -- The left side of a chain stays at the nesting of the operator.
      simp only [TooDeep, Origin.parts, Origin.nest, Bound.unconverted, Bound.nest, Place.below, List.mem_cons,
        List.not_mem_nil, or_false, exists_eq_or_imp, exists_eq_left]
      cases left.isBinary <;> simp only [Bool.false_eq_true, if_false, if_true] <;> omega
    | const | access | list | var =>
      simp [TooDeep, Origin.parts, Origin.nest, Bound.unconverted, Bound.nest]

end Pending

/-- With fuel for all nodes, growing fails exactly if something on the stack is too deep. -/
theorem build_eq_none_iff (limit : Nat) : ∀ (fuel : Nat) (stack : List Pending) (nodes : Array Node),
    Pending.nodeCount stack ≤ fuel →
      (build limit fuel stack nodes = none ↔ ∃ item ∈ stack, item.TooDeep limit) := by
  intro fuel
  induction fuel with
  | zero =>
    intro stack nodes h
    cases stack with
    | nil => simp [build]
    | cons item stack =>
      have hpos := Pending.nodeCount_parts 0 item.place item.origin
      rw [Pending.nodeCount] at h
      omega
  | succ fuel ih =>
    intro stack nodes h
    cases stack with
    | nil => simp [build]
    | cons item stack =>
      have hparts := Pending.nodeCount_parts nodes.size item.place item.origin
      have hdeep := Pending.tooDeep_iff limit nodes.size item.origin item.place
      have hfuel : Pending.nodeCount (item.origin.parts nodes.size item.place ++ stack) ≤ fuel := by
        rw [Pending.nodeCount] at h
        rw [Pending.nodeCount_append]
        omega
      simp only [build, List.mem_cons, exists_eq_or_imp, hdeep]
      by_cases hn : item.place.nesting < limit
      · rw [if_pos hn, ih _ _ hfuel]
        simp [or_and_right, exists_or, Nat.not_le.mpr hn]
      · simp [hn, Nat.not_lt.mp hn]

namespace Tree

/-- A tree is refused exactly if the expression nests as deep as the limit or deeper, and for
no other reason. More fuel than one step for each node makes no difference to this. -/
theorem ofBound_eq_error_iff (expression : String) (b : Bound) (schema : Schema) (options : Options)
    (e : FilterError) (fuel : Nat) :
    (ofBound expression b schema options = .error e ↔
        e = .tooDeep options.maxDepth ∧ options.maxDepth ≤ b.nest) ∧
      (build options.maxDepth (b.nodeCount + fuel) [⟨.expression b, .root⟩] #[] = none ↔
        options.maxDepth ≤ b.nest) := by
  have hbuild : ∀ fuel, build options.maxDepth (b.nodeCount + fuel) [⟨.expression b, .root⟩] #[] = none ↔
      options.maxDepth ≤ b.nest := by
    intro fuel
    rw [build_eq_none_iff]
    · simp [Pending.TooDeep, Place.root, Origin.nest]
    · simp [Pending.nodeCount, Origin.nodeCount]
  refine ⟨?_, hbuild fuel⟩
  have hgrow : grow options.maxDepth .root b #[] = none ↔ options.maxDepth ≤ b.nest := hbuild 0
  rw [ofBound, ← hgrow]
  cases grow options.maxDepth .root b #[] with
  | none => simp [eq_comm]
  | some nodes => simp

end Tree

end FilterGuard
