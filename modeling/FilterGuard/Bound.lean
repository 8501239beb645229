import FilterGuard.Literal
import FilterGuard.Operator

/-!
# Bound expressions

The tree of a filter after its names have been looked up. A member access says
what sort of property it reaches and stands on the instance that has it.
Conversions are put in by binding and have no text of their own.
-/

namespace FilterGuard

/-- The sort of property that an access reaches. -/
inductive Access where
  | property
  /-- A property that an open type does not declare. -/
  | dynamic
  | complex
  | navigation
  | collectionProperty
  | collectionComplex
  | collectionNavigation
  deriving DecidableEq, Repr

inductive Bound where
  | const (value : Literal)
  | convert (source : Bound) (target : Primitive)
  | unary (op : UnaryOp) (operand : Bound)
  | binary (op : BinaryOp) (left right : Bound)
  | call (function : String) (args : List Bound)
  | within (item candidates : Bound)
  /-- An empty quantifier has no variable, and a constant for its body. -/
  | quantified (quantifier : Quantifier) (source : Bound) (var : Option String) (body : Bound)
  /-- A property of the owner, or of no instance in particular. -/
  | access (sort : Access) (owner : Option Bound) (name : String)
  | list (items : List Bound)
  /-- The filtered instance or the variable of a quantifier. -/
  | var (name : String) (type : EdmType)
  deriving Repr, Inhabited

namespace Bound

def instanceName : String := "$it"

/-- The expression under the conversions on top of it. -/
def unconverted : Bound → Bound
  | convert source _ => source.unconverted
  | b => b

def isBinary : Bound → Bool
  | convert source _ => source.isBinary
  | binary .. => true
  | _ => false

def owner? : Bound → Option Bound
  | access _ owner _ => owner
  | _ => none

def memberName? : Bound → Option String
  | access _ _ name => some name
  | _ => none

end Bound

end FilterGuard
