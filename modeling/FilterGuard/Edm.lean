/-!
# The entity data model: types

A property has a primitive type, names an element of the schema, or is a
collection. Numeric kinds carry a rank: an operand of lower rank is promoted to
the other one's kind.
-/

namespace FilterGuard

inductive Primitive where
  | boolean | byte | int16 | int32 | int64 | single | double | decimal
  | string | guid | date | timeOfDay | dateTimeOffset | duration
  deriving DecidableEq, Repr

namespace Primitive

/-- The qualified name, as it is written in messages. -/
def edmName : Primitive → String
  | boolean => "Edm.Boolean"
  | byte => "Edm.Byte"
  | int16 => "Edm.Int16"
  | int32 => "Edm.Int32"
  | int64 => "Edm.Int64"
  | single => "Edm.Single"
  | double => "Edm.Double"
  | decimal => "Edm.Decimal"
  | string => "Edm.String"
  | guid => "Edm.Guid"
  | date => "Edm.Date"
  | timeOfDay => "Edm.TimeOfDay"
  | dateTimeOffset => "Edm.DateTimeOffset"
  | duration => "Edm.Duration"

/-- The name in schema documents. -/
def tag : Primitive → String
  | boolean => "boolean"
  | byte => "byte"
  | int16 => "int16"
  | int32 => "int32"
  | int64 => "int64"
  | single => "single"
  | double => "double"
  | decimal => "decimal"
  | string => "string"
  | guid => "guid"
  | date => "date"
  | timeOfDay => "timeOfDay"
  | dateTimeOffset => "dateTimeOffset"
  | duration => "duration"

def all : List Primitive :=
  [boolean, byte, int16, int32, int64, single, double, decimal,
   string, guid, date, timeOfDay, dateTimeOffset, duration]

def ofTag? (text : String) : Option Primitive :=
  all.find? fun k => k.tag == text

/-- Promotion rank of the numeric kinds. -/
def rank : Primitive → Option Nat
  | byte => some 0
  | int16 => some 1
  | int32 => some 2
  | int64 => some 3
  | decimal => some 4
  | single => some 5
  | double => some 6
  | _ => none

def isNumeric (k : Primitive) : Bool :=
  k.rank.isSome

theorem mem_all (k : Primitive) : k ∈ all := by
  cases k <;> decide

theorem ofTag?_tag (k : Primitive) : ofTag? k.tag = some k := by
  cases k <;> decide

end Primitive

/-- The type of a property or of an expression. Enumerations, complex types and
entity types go by the name of their element. -/
inductive EdmType where
  | primitive (kind : Primitive)
  | enum (name : String)
  | complex (name : String)
  | entity (name : String)
  | collection (item : EdmType)
  deriving DecidableEq, Repr

namespace EdmType

def display : EdmType → String
  | primitive k => k.edmName
  | enum name | complex name | entity name => name
  | collection item => "Collection(" ++ item.display ++ ")"

def item? : EdmType → Option EdmType
  | collection item => some item
  | _ => none

def primitive? : EdmType → Option Primitive
  | primitive k => some k
  | _ => none

/-- Complex types and entity types have properties. -/
def isStructured : EdmType → Bool
  | complex _ | entity _ => true
  | _ => false

def boolean : EdmType := primitive .boolean

def isBoolean (t : EdmType) : Bool :=
  t == boolean

end EdmType

end FilterGuard
