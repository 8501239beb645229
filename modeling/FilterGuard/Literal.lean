import FilterGuard.Edm
import FilterGuard.Text.Quoted

/-!
# Literals

Integers and truth values are kept by value. Other numbers, dates, times,
durations and identifiers keep the text they were written with, so they render
as written.
-/

namespace FilterGuard

inductive Literal where
  | null
  | boolean (value : Bool)
  | int32 (value : Int32)
  | int64 (value : Int64)
  | decimal (text : String)
  | single (text : String)
  | double (text : String)
  | string (value : String)
  | date (text : String)
  | timeOfDay (text : String)
  | dateTimeOffset (text : String)
  | guid (text : String)
  | duration (text : String)
  | enum (type : String) (member : String)
  deriving DecidableEq, Repr

namespace Literal

/-- The type of a literal; `null` has none. -/
def type : Literal → Option EdmType
  | null => none
  | boolean _ => some (.primitive .boolean)
  | int32 _ => some (.primitive .int32)
  | int64 _ => some (.primitive .int64)
  | decimal _ => some (.primitive .decimal)
  | single _ => some (.primitive .single)
  | double _ => some (.primitive .double)
  | string _ => some (.primitive .string)
  | date _ => some (.primitive .date)
  | timeOfDay _ => some (.primitive .timeOfDay)
  | dateTimeOffset _ => some (.primitive .dateTimeOffset)
  | guid _ => some (.primitive .guid)
  | duration _ => some (.primitive .duration)
  | enum type _ => some (.enum type)

/-- The text without quotes and without the name of a type. -/
def scalar : Literal → String
  | null => "null"
  | boolean value => if value then "true" else "false"
  | int32 value => toString value.toInt
  | int64 value => toString value.toInt
  | decimal text | single text | double text => text
  | string value => value
  | date text | timeOfDay text | dateTimeOffset text | guid text | duration text => text
  | enum _ member => member

/-- The literal as filter text. A member of an enumeration is quoted as it is. -/
def render : Literal → String
  | string value => "'" ++ String.ofList (Text.Quoted.encode value.toList) ++ "'"
  | duration text => "duration'" ++ text ++ "'"
  | enum type member => type ++ "'" ++ member ++ "'"
  | other => other.scalar

end Literal

end FilterGuard
