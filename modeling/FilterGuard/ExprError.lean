import FilterGuard.Edm

/-!
# What can be wrong with a filter expression

One cause for each way in which reading or binding a filter can fail, the class
it belongs to, and its wording. Positions count bytes from the start of the text.
-/

namespace FilterGuard

/-- The literal forms that a word can fail to have. -/
inductive LiteralForm where
  | date | timeOfDay | dateTimeOffset | numeric | int64 | duration | typed
  deriving DecidableEq, Repr

def LiteralForm.phrase : LiteralForm → String
  | date => "date"
  | timeOfDay => "timeofday"
  | dateTimeOffset => "datetimeoffset"
  | numeric => "numeric"
  | int64 => "int64"
  | duration => "duration"
  | typed => "typed"

/-- What the grammar allows at a place where something else stands. -/
inductive Expected where
  | expression
  | closeParen
  | commaOrCloseParen
  | propertyName
  | lambdaVariable
  | colon
  | endOfExpression
  deriving DecidableEq, Repr

def Expected.phrase : Expected → String
  | expression => "an expression"
  | closeParen => "')'"
  | commaOrCloseParen => "',' or ')'"
  | propertyName => "a property name after '/'"
  | lambdaVariable => "a lambda variable"
  | colon => "':'"
  | endOfExpression => "end of expression"

/-- The places that take a truth value. -/
inductive BooleanPlace where
  | filter
  | quantifierBody
  | negated
  | connective
  deriving DecidableEq, Repr

def BooleanPlace.phrase : BooleanPlace → String
  | filter => "filter expression"
  | quantifierBody => "lambda body"
  | negated => "operand of 'not'"
  | connective => "operand of a logical operator"

/-- A side of an operator that does not fit: the type found there, or the kind
of operand that was wanted. -/
inductive Side where
  | ofType (type : Option EdmType)
  | aNumber
  | aCollection
  deriving DecidableEq, Repr

/-- A type as messages name it. What has no type is called null. -/
def describe (type : Option EdmType) : String :=
  type.elim "null" EdmType.display

def Side.phrase : Side → String
  | ofType type => describe type
  | aNumber => "a numeric operand"
  | aCollection => "a collection"

inductive ExprError where
  | empty
  | unexpectedCharacter (char : Char) (position : Nat)
  | unterminatedString (position : Nat)
  | invalidLiteral (text : String) (form : LiteralForm) (position : Nat)
  | unexpectedToken (found : String) (expected : Expected) (position : Nat)
  | unexpectedEnd (expected : Expected)
  | tooDeep (limit : Nat)
  | unknownFunction (name : String)
  | argumentCount (function : String) (least most found : Nat)
  | argumentType (function : String) (index : Nat) (found : Option EdmType)
  | propertyNotFound (property type : String)
  | ambiguousProperty (property type : String)
  | notStructured (segment : String) (type : Option EdmType)
  | notCollection (operator : String) (found : Option EdmType)
  | unknownType (name : String)
  | memberNotFound (member type : String)
  | incompatible (operator : String) (left right : Side)
  | notBoolean (place : BooleanPlace) (found : Option EdmType)
  | notCandidates (found : Option EdmType)
  deriving DecidableEq, Repr

namespace ExprError

/-- The class of a cause, for machines. -/
def code : ExprError → String
  | empty => "Empty"
  | unexpectedCharacter .. | unterminatedString _ | unexpectedToken .. | unexpectedEnd _ =>
    "SyntaxError"
  | invalidLiteral .. => "InvalidLiteral"
  | tooDeep _ => "TooDeep"
  | unknownFunction _ => "UnknownFunction"
  | argumentCount .. | argumentType .. => "ArgumentMismatch"
  | propertyNotFound .. | ambiguousProperty .. => "UnknownProperty"
  | unknownType _ => "UnknownType"
  | memberNotFound .. => "UnknownEnumMember"
  | notStructured .. | notCollection .. | incompatible .. | notBoolean .. | notCandidates _ =>
    "TypeMismatch"

def message : ExprError → String
  | empty => "filter expression is empty"
  | unexpectedCharacter char position =>
    "unexpected character '" ++ char.toString ++ "' at position " ++ toString position
  | unterminatedString position =>
    "unterminated string literal starting at position " ++ toString position
  | invalidLiteral text form position =>
    "invalid " ++ form.phrase ++ " literal '" ++ text ++ "' at position " ++ toString position
  | unexpectedToken found expected position =>
    "expected " ++ expected.phrase ++ " but found '" ++ found ++ "' at position " ++ toString position
  | unexpectedEnd expected =>
    "expected " ++ expected.phrase ++ " but reached the end of the expression"
  | tooDeep limit => "filter expression exceeds depth " ++ toString limit
  | unknownFunction name => "unknown function '" ++ name ++ "'"
  | argumentCount function least most found =>
    let range := if least = most then toString least else toString least ++ " to " ++ toString most
    "function '" ++ function ++ "' expects " ++ range ++ " arguments but got " ++ toString found
  | argumentType function index found =>
    "argument " ++ toString index ++ " of '" ++ function ++ "' must be Edm.String, found "
      ++ describe found
  | propertyNotFound property type =>
    "could not find a property named '" ++ property ++ "' on type '" ++ type ++ "'"
  | ambiguousProperty property type =>
    "property name '" ++ property ++ "' is ambiguous on type '" ++ type ++ "'"
  | notStructured segment type =>
    "'" ++ segment ++ "' cannot be accessed on non-structured type '" ++ describe type ++ "'"
  | notCollection operator found =>
    "'" ++ operator ++ "' requires a collection source but found " ++ describe found
  | unknownType name => "type '" ++ name ++ "' is not defined in the schema"
  | memberNotFound member type =>
    "'" ++ member ++ "' is not a member of enum type '" ++ type ++ "'"
  | incompatible operator left right =>
    "operator '" ++ operator ++ "' cannot be applied to " ++ left.phrase ++ " and " ++ right.phrase
  | notBoolean place found =>
    place.phrase ++ " must evaluate to Edm.Boolean, found " ++ describe found
  | notCandidates found =>
    "right operand of 'in' must be a list or collection, found " ++ describe found

/-- The message behind its class. -/
def coded (e : ExprError) : String :=
  "[" ++ e.code ++ "] " ++ e.message

end ExprError

end FilterGuard
