import FilterGuard.Bound.Path
import FilterGuard.FilterError
import FilterGuard.Options

/-!
# Filter trees

A bound expression flattened to numbered nodes: a node, its left subtree, its
right subtree. Conversions have no node, the arguments of a function share one,
and a quantifier has one for its body only, under the path of its collection.

Nesting counts the nodes above a node, but the left side of a binary operator
that is one itself shares the place of the operator above it.
-/

namespace FilterGuard

inductive OperatorKind where
  | unary (op : UnaryOp)
  | binary (op : BinaryOp)
  | call (function : String)
  | within
  | quantified (quantifier : Quantifier)
  deriving DecidableEq, Repr

def OperatorKind.name : OperatorKind → String
  | unary op => op.symbol
  | binary op => op.symbol
  | call function => function
  | within => "in"
  | quantified quantifier => quantifier.symbol

inductive OperandKind where
  | constant
  | property
  | dynamic
  | complex
  | navigation
  | collection
  | var
  | arguments
  | list
  deriving DecidableEq, Repr

/-- What stands at a node: an operator, or an operand with its values and the
property it refers to. -/
inductive Content where
  | operator (kind : OperatorKind)
  | operand (kind : OperandKind) (values : List String) (property : Option String)
  deriving DecidableEq, Repr

structure Node where
  id : Nat
  parent : Option Nat
  left : Option Nat
  right : Option Nat
  /-- The distance from the root. -/
  level : Nat
  /-- The path of the collection of the quantifier around the node. -/
  scope : Option String
  content : Content
  text : String
  deriving DecidableEq, Repr

namespace Node

def operator? (n : Node) : Option String :=
  match n.content with
  | .operator kind => some kind.name
  | .operand .. => none

def property? (n : Node) : Option String :=
  match n.content with
  | .operator _ => none
  | .operand _ _ property => property

def values? (n : Node) : Option (List String) :=
  match n.content with
  | .operator _ => none
  | .operand _ values _ => some values

end Node

/-! ## Contents -/

namespace Content

def kindOfAccess : Access → OperandKind
  | .property => .property
  | .dynamic => .dynamic
  | .complex => .complex
  | .navigation => .navigation
  | .collectionProperty | .collectionComplex | .collectionNavigation => .collection

/-- The text of an operand that names a property. -/
def named (kind : OperandKind) (text : String) : Content :=
  .operand kind [text] (if text = "" then none else some text)

/-- The content of the node for an expression that has no nodes below it. -/
def ofLeaf (scope : Option String) (b : Bound) : Content :=
  match b with
  | .access sort _ _ =>
    let kind := kindOfAccess sort
    let text := b.operandText scope
    if kind = .property ∨ kind = .dynamic ∨ kind = .complex then named kind text
    else .operand kind [text] none
  | .var .. => named .var (b.operandText scope)
  | .list items => .operand .list (items.map (Bound.operandText scope)) none
  | b => .operand .constant [b.operandText scope] none

/-- The content of the node that the arguments of a function share. -/
def ofArguments (scope : Option String) (args : List Bound) : Content :=
  .operand .arguments (args.map (Bound.operandText scope))
    ((args.head?.bind (Bound.path scope)).filter (· ≠ ""))

/-- The content of the node for an expression without conversions on top. -/
def ofBound (scope : Option String) : Bound → Content
  | .unary op _ => .operator (.unary op)
  | .binary op _ _ => .operator (.binary op)
  | .within .. => .operator .within
  | .call function _ => .operator (.call (Text.fold function))
  | .quantified quantifier .. => .operator (.quantified quantifier)
  | b => ofLeaf scope b

end Content

/-! ## Growing a tree

Nodes that are still to be added wait on a stack. The next of them is added and
put into its parent, and what is below it goes on the stack, its left side on top.
-/

inductive Branch where
  | left
  | right
  deriving DecidableEq, Repr

/-- What a node stands for: an expression, or the arguments of a function. -/
inductive Origin where
  | expression (b : Bound)
  | arguments (args : List Bound)

structure Place where
  parent : Option (Nat × Branch)
  scope : Option String
  nesting : Nat

namespace Place

def root : Place := ⟨none, none, 0⟩

/-- A place below the node `id` that stands at `p`. -/
def below (p : Place) (id : Nat) (side : Branch) : Place :=
  { p with parent := some (id, side), nesting := p.nesting + 1 }

/-- One level more than that of the parent among the nodes. -/
def level (p : Place) (nodes : Array Node) : Nat :=
  p.parent.elim 0 fun parent => nodes[parent.1]?.elim 0 Node.level + 1

end Place

structure Pending where
  origin : Origin
  place : Place

namespace Origin

def content (scope : Option String) : Origin → Content
  | expression b => .ofBound scope b.unconverted
  | arguments args => .ofArguments scope args

def text : Origin → String
  | expression b => b.unconverted.render
  | arguments args => ", ".intercalate (args.map Bound.render)

/-- What is below the node `id` at `p`, from left to right. -/
def parts (id : Nat) (p : Place) : Origin → List Pending
  | arguments _ => []
  | expression b =>
    match b.unconverted with
    | .unary _ operand => [⟨expression operand, p.below id .left⟩]
    | .binary _ left right =>
      let beside := if left.isBinary then { p.below id .left with nesting := p.nesting } else p.below id .left
      [⟨expression left, beside⟩, ⟨expression right, p.below id .right⟩]
    | .within item candidates =>
      [⟨expression item, p.below id .left⟩, ⟨expression candidates, p.below id .right⟩]
    | .call _ args => [⟨arguments args, p.below id .left⟩]
    | .quantified _ source _ body =>
      [⟨expression body, { p.below id .left with scope := (source.path p.scope).or p.scope }⟩]
    | _ => []

end Origin

def Node.withChild (n : Node) (side : Branch) (child : Nat) : Node :=
  match side with
  | .left => { n with left := some child }
  | .right => { n with right := some child }

/-- The nodes with a child put into its parent. -/
def link (parent : Option (Nat × Branch)) (child : Nat) (nodes : Array Node) : Array Node :=
  match parent with
  | none => nodes
  | some (id, side) => nodes.modify id fun n => n.withChild side child

def Pending.add (item : Pending) (nodes : Array Node) : Array Node :=
  let p := item.place
  link p.parent nodes.size <| nodes.push
    ⟨nodes.size, p.parent.map Prod.fst, none, none, p.level nodes, p.scope,
      item.origin.content p.scope, item.origin.text⟩

/-- The nodes with those of a stack, and all below them, behind, but no more than
the fuel. There are none if one of them is nested too deep. -/
def build (limit : Nat) : Nat → List Pending → Array Node → Option (Array Node)
  | fuel + 1, item :: stack, nodes =>
    if item.place.nesting < limit then
      build limit fuel (item.origin.parts nodes.size item.place ++ stack) (item.add nodes)
    else none
  | _, _, nodes => some nodes

/-- How many nodes an expression has. -/
def Bound.nodeCount : Bound → Nat
  | convert source _ => source.nodeCount
  | unary _ operand => operand.nodeCount + 1
  | binary _ left right => left.nodeCount + right.nodeCount + 1
  | within item candidates => item.nodeCount + candidates.nodeCount + 1
  | call .. => 2
  | quantified _ _ _ body => body.nodeCount + 1
  | _ => 1

/-- The nodes with those of an expression behind them, unless it nests too deep. -/
def grow (limit : Nat) (p : Place) (b : Bound) (nodes : Array Node) : Option (Array Node) :=
  build limit b.nodeCount [⟨.expression b, p⟩] nodes

structure Tree where
  expression : String
  bound : Bound
  nodes : Array Node
  /-- The elements of the schema that the filter was bound to. -/
  elements : List Element

namespace Tree

def ofBound (expression : String) (b : Bound) (schema : Schema) (options : Options) :
    Except FilterError Tree :=
  match grow options.maxDepth .root b #[] with
  | some nodes => .ok ⟨expression, b, nodes, schema.elements⟩
  | none => .error (.tooDeep options.maxDepth)

def node? (t : Tree) (id : Nat) : Option Node :=
  t.nodes[id]?

/-- The nodes met on the way from the nodes on a stack, at most as many as the fuel. -/
def walk (nodes : Array Node) : Nat → List Nat → List Node
  | 0, _ => []
  | _, [] => []
  | fuel + 1, id :: stack =>
    match nodes[id]? with
    | none => []
    | some n => n :: walk nodes fuel (n.left.toList ++ n.right.toList ++ stack)

/-- The nodes in pre-order, by their links. -/
def preOrder (t : Tree) : List Node :=
  walk t.nodes t.nodes.size [0]

/-- The node under a link and those above it, at most as many as the fuel. -/
def climb (nodes : Array Node) : Nat → Option Nat → List Node
  | 0, _ => []
  | _, none => []
  | fuel + 1, some id =>
    match nodes[id]? with
    | none => []
    | some n => n :: climb nodes fuel n.parent

/-- The nodes above the node `id`, innermost first. -/
def ancestors (t : Tree) (id : Nat) : List Node :=
  climb t.nodes t.nodes.size ((t.node? id).bind Node.parent)

end Tree

end FilterGuard
