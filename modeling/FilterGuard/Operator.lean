import FilterGuard.Text.Fold

/-!
# Operators

The unary and binary operators, their names in inventories, and the words they
are written with. Words are matched up to case.
-/

namespace FilterGuard

inductive UnaryOp where
  | not
  | negate
  deriving DecidableEq, Repr

def UnaryOp.symbol : UnaryOp → String
  | not => "not"
  | negate => "negate"

inductive BinaryOp where
  | or | and
  | eq | ne | gt | ge | lt | le
  | add | sub | mul | div | mod
  | has
  deriving DecidableEq, Repr

namespace BinaryOp

def symbol : BinaryOp → String
  | or => "or"
  | and => "and"
  | eq => "eq"
  | ne => "ne"
  | gt => "gt"
  | ge => "ge"
  | lt => "lt"
  | le => "le"
  | add => "add"
  | sub => "sub"
  | mul => "mul"
  | div => "div"
  | mod => "mod"
  | has => "has"

def all : List BinaryOp :=
  [or, and, eq, ne, gt, ge, lt, le, add, sub, mul, div, mod, has]

theorem mem_all (op : BinaryOp) : op ∈ all := by
  cases op <;> decide

/-- The operator among `ops` whose symbol is `word`, up to case. -/
def ofWord? (ops : List BinaryOp) (word : String) : Option BinaryOp :=
  ops.find? fun op => Text.fold word == op.symbol

/-- Comparisons, and the test for a flag of an enumeration. -/
def comparison? (word : String) : Option BinaryOp :=
  ofWord? [eq, ne, gt, ge, lt, le, has] word

def additive? (word : String) : Option BinaryOp :=
  ofWord? [add, sub] word

/-- Division has a second spelling. -/
def multiplicative? (word : String) : Option BinaryOp :=
  if Text.fold word == "divby" then some div else ofWord? [mul, div, mod] word

def ofSymbol? (word : String) : Option BinaryOp :=
  all.find? fun op => op.symbol == word

theorem ofSymbol?_symbol (op : BinaryOp) : ofSymbol? op.symbol = some op := by
  cases op <;> decide

def isLogical : BinaryOp → Bool
  | or | and => true
  | _ => false

def isArithmetic : BinaryOp → Bool
  | add | sub | mul | div | mod => true
  | _ => false

def isOrdering : BinaryOp → Bool
  | gt | ge | lt | le => true
  | _ => false

end BinaryOp

inductive Quantifier where
  | any
  | all
  deriving DecidableEq, Repr

namespace Quantifier

def symbol : Quantifier → String
  | any => "any"
  | all => "all"

def ofWord? (word : String) : Option Quantifier :=
  if Text.fold word == "any" then some any
  else if Text.fold word == "all" then some all
  else none

end Quantifier

end FilterGuard
