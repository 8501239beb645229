import FilterGuard.Bound
import FilterGuard.ExprError
import FilterGuard.Options
import FilterGuard.Schema

/-!
# Types of operands

How two operands come to have types that an operator takes. Numbers of lower
rank are converted, and a string beside an enumeration is read as one of its
members. An operand without a type goes with everything.
-/

namespace FilterGuard.Binding

/-- A bound expression with its type. `null` and undeclared properties have none. -/
structure Typed where
  node : Bound
  type : Option EdmType
  deriving Repr

def truth (node : Bound) : Typed :=
  ⟨node, some .boolean⟩

structure Context where
  schema : Schema
  /-- The type of the filtered instance. -/
  root : EdmType
  options : Options

def requireBoolean (place : BooleanPlace) (x : Typed) : Except ExprError Unit :=
  match x.type with
  | none => .ok ()
  | some t => if t.isBoolean then .ok () else .error (.notBoolean place x.type)

def incompatible (operator : String) (left right : Typed) : ExprError :=
  .incompatible operator (.ofType left.type) (.ofType right.type)

/-! ## Members of enumerations -/

def enumConstant (ctx : Context) (e : Element) (member : String) : Except ExprError Literal :=
  match e.findMember member ctx.options.ignoreCase with
  | some declared => .ok (.enum e.fullName declared)
  | none => .error (.memberNotFound member e.fullName)

/-- An operand that has to have the enumeration `name` for its type. -/
def asEnum (ctx : Context) (name operator : String) (x : Typed) : Except ExprError Bound :=
  match x.node.unconverted with
  | .const (.string member) =>
    match ctx.schema.enumType name with
    | some e => (enumConstant ctx e member).map .const
    | none => .error (.unknownType name)
  | _ =>
    if x.type = none ∨ x.type = some (.enum name) then .ok x.node
    else .error (.incompatible operator (.ofType (some (.enum name))) (.ofType x.type))

/-! ## Comparisons -/

/-- Operands of two primitive kinds, the one of lower rank converted. -/
def promote (operator : String) (left right : Typed) (a b : Primitive) :
    Except ExprError (Bound × Bound) :=
  if a = b then .ok (left.node, right.node)
  else match a.rank, b.rank with
    | some m, some n =>
      if m < n then .ok (.convert left.node b, right.node)
      else .ok (left.node, .convert right.node a)
    | _, _ => .error (incompatible operator left right)

def unify (ctx : Context) (operator : String) (left right : Typed) : Except ExprError (Bound × Bound) :=
  match left.type, right.type with
  | none, _ | _, none => .ok (left.node, right.node)
  | some (.enum name), some (.primitive .string) =>
    (asEnum ctx name operator right).map fun r => (left.node, r)
  | some (.primitive .string), some (.enum name) =>
    (asEnum ctx name operator left).map fun l => (l, right.node)
  | some (.enum a), some (.enum b) =>
    if a = b then .ok (left.node, right.node) else .error (incompatible operator left right)
  | some (.primitive a), some (.primitive b) => promote operator left right a b
  | some _, some _ => .error (incompatible operator left right)

/-! ## Arithmetic -/

/-- Numbers and durations can be added to something of unknown type, and negated. -/
def isQuantity (t : EdmType) : Bool :=
  match t with
  | .primitive k => k.isNumeric || k = .duration
  | _ => false

/-- What comes of adding or subtracting a time and something else. -/
def timeResult (op : BinaryOp) (a b : Primitive) : Option Primitive :=
  match a, b with
  | .dateTimeOffset, .duration | .date, .duration | .duration, .duration =>
    if op = .add ∨ op = .sub then some a else none
  | .dateTimeOffset, .dateTimeOffset => if op = .sub then some .duration else none
  | _, _ => none

def arithmetic (op : BinaryOp) (left right : Typed) : Except ExprError Typed :=
  let plain (t : Option EdmType) : Typed := ⟨.binary op left.node right.node, t⟩
  match left.type, right.type with
  | none, none => .ok (plain none)
  | none, some t | some t, none =>
    if isQuantity t then .ok (plain (some t)) else .error (incompatible op.symbol left right)
  | some (.primitive a), some (.primitive b) =>
    match a.rank, b.rank with
    | some m, some n =>
      if m < n then .ok ⟨.binary op (.convert left.node b) right.node, some (.primitive b)⟩
      else if n < m then .ok ⟨.binary op left.node (.convert right.node a), some (.primitive a)⟩
      else .ok (plain (some (.primitive a)))
    | _, _ =>
      match timeResult op a b with
      | some k => .ok (plain (some (.primitive k)))
      | none => .error (incompatible op.symbol left right)
  | some _, some _ => .error (incompatible op.symbol left right)

/-! ## Operators -/

/-- The left side must have an enumeration for its type. -/
def flagTest (ctx : Context) (left right : Typed) : Except ExprError Typed :=
  match left.type with
  | some (.enum name) =>
    (asEnum ctx name BinaryOp.has.symbol right).map fun r => truth (.binary .has left.node r)
  | _ => .error (incompatible BinaryOp.has.symbol left right)

def combine (ctx : Context) (op : BinaryOp) (left right : Typed) : Except ExprError Typed :=
  if op.isLogical then do
    requireBoolean .connective left
    requireBoolean .connective right
    return truth (.binary op left.node right.node)
  else if op = .has then flagTest ctx left right
  else if op.isArithmetic then arithmetic op left right
  else do
    let (l, r) ← unify ctx op.symbol left right
    return truth (.binary op l r)

def combineUnary (op : UnaryOp) (x : Typed) : Except ExprError Typed :=
  match op with
  | .not => do
    requireBoolean .negated x
    return truth (.unary .not x.node)
  | .negate =>
    if x.type.all isQuantity then .ok ⟨.unary .negate x.node, x.type⟩
    else .error (.incompatible op.symbol (.ofType x.type) .aNumber)

/-- An item of the list that `subject` is looked for in. A number is converted to
the kind of the subject. -/
def asItem (ctx : Context) (subject : Option EdmType) (item : Typed) : Except ExprError Typed :=
  match subject, item.type with
  | none, _ | _, none => .ok item
  | some (.enum name), some _ => (asEnum ctx name "in" item).map fun node => ⟨node, item.type⟩
  | some (.primitive a), some (.primitive b) =>
    if a = b then .ok item
    else if a.isNumeric && b.isNumeric then .ok ⟨.convert item.node a, some (.primitive a)⟩
    else .error (.incompatible "in" (.ofType subject) (.ofType item.type))
  | some _, some _ => .error (.incompatible "in" (.ofType subject) (.ofType item.type))

end FilterGuard.Binding
