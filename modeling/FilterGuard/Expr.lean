import FilterGuard.Literal
import FilterGuard.Operator

/-!
# Expressions as written

The tree of a filter before its names are looked up.
-/

namespace FilterGuard

inductive Expr where
  | literal (value : Literal)
  | list (items : List Expr)
  /-- A name that starts a path. -/
  | name (name : String)
  /-- A later segment of a path. -/
  | member (owner : Expr) (name : String)
  /-- A quantifier with nothing between its parentheses. -/
  | quantifiedEmpty (quantifier : Quantifier) (source : Expr)
  | quantified (quantifier : Quantifier) (source : Expr) (var : String) (body : Expr)
  | call (function : String) (args : List Expr)
  | unary (op : UnaryOp) (operand : Expr)
  | binary (op : BinaryOp) (left right : Expr)
  | within (item candidates : Expr)
  deriving Repr, Inhabited

def Expr.isBinary : Expr → Bool
  | .binary .. => true
  | _ => false

end FilterGuard
