import FilterGuard.Binding.Coercion
import FilterGuard.Binding.Signature
import FilterGuard.Expr

/-!
# Binding expressions to a schema

A name that starts a path is the filtered instance, else the innermost variable
of that name, else a property of the filtered instance. A binder keeps the
variables in scope on a stack, and counts the expressions that it is in. The
operators of a chain are collected and taken one by one, so chains may have any
length.
-/

namespace FilterGuard.Binding

/-- What a binder keeps: the variables of the quantifiers it is in, innermost last,
and how many expressions it is in. -/
structure State where
  scopes : Array (String × EdmType)
  depth : Nat
  deriving DecidableEq, Repr

abbrev Binder := ExceptT ExprError (StateM State)

def accessTo : EdmType → Access
  | .primitive _ | .enum _ => .property
  | .complex _ => .complex
  | .entity _ => .navigation
  | .collection (.complex _) => .collectionComplex
  | .collection (.entity _) => .collectionNavigation
  | .collection _ => .collectionProperty

def property (ctx : Context) (owner : Bound) (type name : String) : Except ExprError Typed :=
  match ctx.schema.structuredType type with
  | none => .error (.unknownType type)
  | some e =>
    match e.findProperty name ctx.options.ignoreCase with
    | .found p => .ok ⟨.access (accessTo p.type) (some owner) p.name, some p.type⟩
    | .missing =>
      if e.isOpen then .ok ⟨.access .dynamic (some owner) name, none⟩
      else .error (.propertyNotFound name e.fullName)
    | .ambiguous => .error (.ambiguousProperty name e.fullName)

/-- The property `name` of a bound instance, which must have properties. -/
def member (ctx : Context) (owner : Typed) (name : String) : Except ExprError Typed :=
  match owner.type with
  | some (.complex type) | some (.entity type) => property ctx owner.node type name
  | other => .error (.notStructured name other)

def filtered (ctx : Context) : Typed :=
  ⟨.var Bound.instanceName ctx.root, some ctx.root⟩

def literal (ctx : Context) (value : Literal) : Except ExprError Typed :=
  match value with
  | .enum type member =>
    match ctx.schema.enumType type with
    | none => .error (.unknownType type)
    | some e => (enumConstant ctx e member).map fun v => ⟨.const v, v.type⟩
  | value => .ok ⟨.const value, value.type⟩

/-- A list has the type of the first item that has one. -/
def list (items : List Typed) : Typed :=
  ⟨.list (items.map Typed.node), (items.findSome? Typed.type).map .collection⟩

/-- The function that is called, if it takes that many arguments. -/
def signature (function : String) (count : Nat) : Except ExprError Signature :=
  match Signature.find? function with
  | none => .error (.unknownFunction function)
  | some s =>
    if s.least ≤ count ∧ count ≤ s.most then .ok s
    else .error (.argumentCount s.name s.least s.most count)

/-- An argument, by its place from zero. -/
def asArgument (s : Signature) (index : Nat) (x : Typed) : Except ExprError Typed :=
  if index < s.strings ∧ x.type ≠ none ∧ x.type ≠ some (.primitive .string) then
    .error (.argumentType s.name (index + 1) x.type)
  else .ok x

def call (s : Signature) (args : List Typed) : Typed :=
  let type := match s.result with
    | .fixed k => some (.primitive k)
    | .ofFirst => args.head?.bind Typed.type
  ⟨.call s.name (args.map Typed.node), type⟩

def itemType (quantifier : Quantifier) (source : Typed) : Except ExprError EdmType :=
  match source.type with
  | some (.collection item) => .ok item
  | other => .error (.notCollection quantifier.symbol other)

/-- What is looked for in a list must not be a collection itself. -/
def requireSingle (x : Typed) : Except ExprError Unit :=
  match x.type with
  | some (.collection _) => .error (.incompatible "in" (.ofType x.type) .aCollection)
  | _ => .ok ()

/-- What is looked in must be a collection. -/
def requireCollection (x : Typed) : Except ExprError Unit :=
  match x.type with
  | some (.collection _) => .ok ()
  | other => .error (.notCandidates other)

/-! ## Binders -/

/-- What a name that starts a path means. -/
def root (ctx : Context) (name : String) : Binder Typed := do
  if name = Bound.instanceName then return filtered ctx
  match (← get).scopes.findRev? fun v => v.1 = name with
  | some (v, type) => return ⟨.var v type, some type⟩
  | none => member ctx (filtered ctx) name

/-- Goes one expression deeper for the time of `body`, if the limit allows. -/
def nested {α : Type} (ctx : Context) (body : Binder α) : Binder α := do
  if ctx.options.maxDepth ≤ (← get).depth then throw (.tooDeep ctx.options.maxDepth)
  modify fun s => { s with depth := s.depth + 1 }
  try body finally modify fun s => { s with depth := s.depth - 1 }

/-- Has a variable in scope for the time of `body`. -/
def withVariable {α : Type} (v : String × EdmType) (body : Binder α) : Binder α := do
  modify fun s => { s with scopes := s.scopes.push v }
  try body finally modify fun s => { s with scopes := s.scopes.pop }

/-- The leftmost operand of a chain of operators, and each operator with its right
operand, from left to right, in front of further ones. -/
def chain : Expr → List (BinaryOp × Expr) → Expr × List (BinaryOp × Expr)
  | .binary op left right, steps => chain left ((op, right) :: steps)
  | e, steps => (e, steps)

section
variable (ctx : Context) (bind : Expr → Binder Typed)

/-- Binds expressions from left to right and passes each one, with its place,
through `finish` before the next one. -/
def bindEach (finish : Nat → Typed → Except ExprError Typed) (index : Nat) : List Expr → Binder (List Typed)
  | [] => return []
  | e :: rest => do
    let x ← finish index (← bind e)
    let more ← bindEach finish (index + 1) rest
    return x :: more

/-- Goes on from the left side of operators to their right operands. -/
def bindSteps (left : Typed) (steps : List (BinaryOp × Expr)) : Binder Typed :=
  steps.foldlM (fun left (op, right) => do combine ctx op left (← bind right)) left

/-- Binds an expression, given what binds the expressions in it. -/
def bindExpr : Expr → Binder Typed
  | .literal value => literal ctx value
  | .list items => return list (← bindEach bind (fun _ x => .ok x) 0 items)
  | .name name => root ctx name
  | .member owner name => do member ctx (← bind owner) name
  | .quantifiedEmpty quantifier source => do
    let source ← bind source
    let _ ← itemType quantifier source
    return truth (.quantified quantifier source.node none (.const (.boolean true)))
  | .quantified quantifier source v body => do
    let source ← bind source
    let item ← itemType quantifier source
    let body ← withVariable (v, item) (bind body)
    requireBoolean .quantifierBody body
    return truth (.quantified quantifier source.node (some v) body.node)
  | .call function args => do
    let s ← signature function args.length
    return call s (← bindEach bind (asArgument s) 0 args)
  | .unary op operand => do combineUnary op (← bind operand)
  | .binary op left right => do
    let (first, steps) := chain left [(op, right)]
    bindSteps ctx bind (← bind first) steps
  | .within item candidates => do
    let subject ← bind item
    requireSingle subject
    let asItem := fun _ x => asItem ctx subject.type x
    match candidates with
    | .list items =>
      let items ← bindEach bind asItem 0 items
      return truth (.within subject.node (.list (items.map Typed.node)))
    | .literal value =>
      let items ← bindEach bind asItem 0 [.literal value]
      return truth (.within subject.node (.list (items.map Typed.node)))
    | other =>
      let candidates ← bind other
      requireCollection candidates
      return truth (.within subject.node candidates.node)

end

/-- Binds an expression in which no more than `room` can be nested, itself one of them. -/
def bindIn (ctx : Context) : Nat → Expr → Binder Typed
  | 0, _ => throw (.tooDeep ctx.options.maxDepth)
  | room + 1, e => nested ctx (bindExpr ctx (bindIn ctx room) e)

def bindFilter (ctx : Context) (e : Expr) : Binder Bound := do
  let x ← bindIn ctx ctx.options.maxDepth e
  requireBoolean .filter x
  return x.node

def bind (schema : Schema) (type : Element) (options : Options) (e : Expr) : Except ExprError Bound :=
  ((bindFilter ⟨schema, .entity type.fullName, options⟩ e).run.run ⟨#[], 0⟩).1

end FilterGuard.Binding
