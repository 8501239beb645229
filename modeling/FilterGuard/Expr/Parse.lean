import FilterGuard.Expr
import FilterGuard.ExprError
import FilterGuard.Token.Scan

/-!
# Parsing expressions

Operators in five levels, tightest first: `mul div mod`, `add sub`, comparisons
and `in`, `and`, `or`. Every level associates to the left; `not` and the minus
apply to the operand that follows. `room` is how many more expressions may be
nested, so the functions that nest recurse on it. A loop takes at least one
token in each round, and its fuel is the number of tokens there are.
-/

namespace FilterGuard.Parsing

/-- A reader of the front of a list of tokens. -/
abbrev Parse (α : Type) := List Token → Except ExprError (α × List Token)

abbrev Join := Expr → Expr → Expr

def unexpected (expected : Expected) (t : Token) : ExprError :=
  .unexpectedToken t.text expected t.position

def expect (kind : TokenKind) (expected : Expected) : List Token → Except ExprError (List Token)
  | [] => .error (.unexpectedEnd expected)
  | t :: rest => if t.kind = kind then .ok rest else .error (unexpected expected t)

/-! ## Levels of operators -/

/-- Further operators of a level behind the expression `left`. -/
def chain (operand : Parse Expr) (join? : Token → Option Join) : Nat → Expr → Parse Expr
  | 0, left, ts => .ok (left, ts)
  | _ + 1, left, [] => .ok (left, [])
  | fuel + 1, left, t :: rest =>
    match join? t with
    | none => .ok (left, t :: rest)
    | some join => do
      let (right, rest) ← operand rest
      chain operand join? fuel (join left right) rest

/-- Operands with the operators of one level between them, from left to right. -/
def leftAssoc (operand : Parse Expr) (join? : Token → Option Join) : Parse Expr := fun ts => do
  let (first, rest) ← operand ts
  chain operand join? rest.length first rest

/-- The operators that `ofWord?` knows, as a level. -/
def binaryJoin (ofWord? : String → Option BinaryOp) (t : Token) : Option Join := do
  let op ← ofWord? (← t.identifier?)
  return Expr.binary op

/-- Comparisons and `in` share a level. -/
def comparisonJoin (t : Token) : Option Join :=
  match binaryJoin BinaryOp.comparison? t with
  | some join => some join
  | none => if t.isKeyword "in" then some Expr.within else none

/-- The levels of operators, tightest first. -/
def levels : List (Token → Option Join) :=
  [binaryJoin BinaryOp.multiplicative?,
   binaryJoin BinaryOp.additive?,
   comparisonJoin,
   binaryJoin (BinaryOp.ofWord? [.and]),
   binaryJoin (BinaryOp.ofWord? [.or])]

def stratified (operand : Parse Expr) : Parse Expr :=
  levels.foldl leftAssoc operand

/-! ## Operands -/

def commaSeparated (expression : Parse Expr) : Nat → Parse (List Expr)
  | 0, ts => .ok ([], ts)
  | fuel + 1, ts => do
    let (first, rest) ← expression ts
    match rest with
    | ⟨.comma, _, _⟩ :: rest =>
      let (more, rest) ← commaSeparated expression fuel rest
      return (first :: more, rest)
    | rest => return ([first], rest)

/-- What stands behind an opening parenthesis: an expression, or a list of at least two. -/
def parenthesized (expression : Parse Expr) : Parse Expr := fun ts => do
  let (items, rest) ← commaSeparated expression (ts.length + 1) ts
  let rest ← expect .closeParen .closeParen rest
  match items with
  | [item] => return (item, rest)
  | items => return (.list items, rest)

def arguments (expression : Parse Expr) : Parse (List Expr) := fun ts =>
  match ts with
  | ⟨.closeParen, _, _⟩ :: rest => .ok ([], rest)
  | ts => do
    let (args, rest) ← commaSeparated expression (ts.length + 1) ts
    let rest ← expect .closeParen .commaOrCloseParen rest
    return (args, rest)

/-- A quantifier over `source` behind its opening parenthesis. -/
def quantifierBody (expression : Parse Expr) (quantifier : Quantifier) (source : Expr) : Parse Expr :=
  fun ts =>
    match ts with
    | [] => .error (.unexpectedEnd .lambdaVariable)
    | ⟨.closeParen, _, _⟩ :: rest => .ok (.quantifiedEmpty quantifier source, rest)
    | ⟨.identifier var, _, _⟩ :: rest => do
      let rest ← expect .colon .colon rest
      let (body, rest) ← expression rest
      let rest ← expect .closeParen .closeParen rest
      return (.quantified quantifier source var body, rest)
    | t :: _ => .error (unexpected .lambdaVariable t)

/-- Further segments of a path behind `owner`. A segment that names a quantifier
is one if a parenthesis opens behind it. -/
def path (expression : Parse Expr) : Nat → Expr → Parse Expr
  | fuel + 1, owner, ⟨.slash, _, _⟩ :: ts =>
    match ts with
    | [] => .error (.unexpectedEnd .propertyName)
    | ⟨.identifier segment, _, _⟩ :: rest =>
      match Quantifier.ofWord? segment, rest with
      | some quantifier, ⟨.openParen, _, _⟩ :: rest => do
        let (owner, rest) ← quantifierBody expression quantifier owner rest
        path expression fuel owner rest
      | _, _ => path expression fuel (.member owner segment) rest
    | t :: _ => .error (unexpected .propertyName t)
  | _, owner, ts => .ok (owner, ts)

def wordLiteral? (name : String) : Option Literal :=
  if Text.sameName name "null" then some .null
  else if Text.sameName name "true" then some (.boolean true)
  else if Text.sameName name "false" then some (.boolean false)
  else none

/-- What an identifier starts where an operand is wanted. -/
def named (expression : Parse Expr) (name : String) : Parse Expr := fun ts =>
  match wordLiteral? name with
  | some value => .ok (.literal value, ts)
  | none =>
    match ts with
    | ⟨.openParen, _, _⟩ :: rest => do
      let (args, rest) ← arguments expression rest
      return (.call name args, rest)
    | ts => path expression ts.length (.name name) ts

def negation (operand : Parse Expr) (op : UnaryOp) : Parse Expr := fun ts => do
  let (x, rest) ← operand ts
  return (.unary op x, rest)

/-- An operand, given what reads an expression and an operand nested in it. -/
def operandOf (expression operand : Parse Expr) : Parse Expr
  | [] => .error (.unexpectedEnd .expression)
  | t :: rest =>
    match t.kind with
    | .identifier name =>
      if Text.sameName name "not" then negation operand .not rest else named expression name rest
    | .minus => negation operand .negate rest
    | .openParen => parenthesized expression rest
    | .literal value => .ok (.literal value, rest)
    | _ => .error (unexpected .expression t)

/-! ## Nesting -/

def exhausted (limit : Nat) : Parse Expr := fun _ =>
  .error (.tooDeep limit)

/-- An operand in which `room` more expressions may be nested. -/
def operand (limit : Nat) : Nat → Parse Expr
  | 0, ts => operandOf (exhausted limit) (exhausted limit) ts
  | room + 1, ts => operandOf (stratified (operand limit room)) (operand limit room) ts

/-- An expression that takes one of the `room` places. -/
def expression (limit : Nat) : Nat → Parse Expr
  | 0 => exhausted limit
  | room + 1 => stratified (operand limit room)

end FilterGuard.Parsing

namespace FilterGuard

open Parsing in
def Expr.ofTokens (limit : Nat) (ts : List Token) : Except ExprError Expr :=
  match ts with
  | [] => .error .empty
  | ts => do
    let (e, rest) ← expression limit limit ts
    match rest with
    | [] => return e
    | t :: _ => throw (unexpected .endOfExpression t)

/-- The expression that a text writes, nested no deeper than `limit`. -/
def Expr.parse (text : String) (limit : Nat) : Except ExprError Expr := do
  Expr.ofTokens limit (← Token.read text)

end FilterGuard
