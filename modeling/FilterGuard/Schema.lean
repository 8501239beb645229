import FilterGuard.Edm
import FilterGuard.Text.Fold

/-!
# Schemas

A schema is a list of named elements: entity types, complex types and
enumerations. Properties refer to elements by name. `Schema.ofElements` checks
that names are distinct and that every reference leads to an element of the kind
it asks for, and writes the full name of that element into the reference.
-/

namespace FilterGuard

inductive ElementKind where
  | entity
  | complex
  | enum
  deriving DecidableEq, Repr

def ElementKind.phrase : ElementKind → String
  | entity => "entity type"
  | complex => "complex type"
  | enum => "enum type"

structure Property where
  name : String
  type : EdmType
  deriving DecidableEq, Repr

/-- A named element. Entity types have a key, structured types have properties,
and enumerations have members. An open type has properties nobody declared. -/
structure Element where
  /-- The namespace. -/
  space : String
  name : String
  kind : ElementKind
  key : List String
  properties : List Property
  members : List String
  isOpen : Bool
  deriving DecidableEq, Repr

inductive SchemaError where
  | empty
  | typeNotFound (name : String) (available : List String)
  | duplicateElement (name : String)
  | unknownReference (owner property target : String) (expected : ElementKind)
  /-- The document does not have the form of a schema. -/
  | unreadable
  deriving DecidableEq, Repr

def SchemaError.message : SchemaError → String
  | empty => "schema does not contain any elements"
  | typeNotFound name available =>
    let names := if available = [] then "none" else ", ".intercalate available
    "type '" ++ name ++ "' not found in schema (available: " ++ names ++ ")"
  | duplicateElement name => "schema element '" ++ name ++ "' is declared more than once"
  | unknownReference owner property target expected =>
    "property '" ++ owner ++ "." ++ property ++ "' references unknown " ++ expected.phrase ++ " '"
      ++ target ++ "'"
  | unreadable => "invalid schema document"

inductive PropertyMatch where
  | found (property : Property)
  | missing
  /-- Several properties differ only by case. -/
  | ambiguous
  deriving DecidableEq, Repr

namespace Element

/-- The name behind its namespace, if there is one. -/
def fullName (e : Element) : String :=
  if e.space = "" then e.name else e.space ++ "." ++ e.name

def isStructured (e : Element) : Bool :=
  e.kind = .entity || e.kind = .complex

/-- Whether `name` is the name of the element, alone or behind its namespace. -/
def answersTo (e : Element) (name : String) : Bool :=
  e.name = name || name = e.space ++ "." ++ e.name

/-- Looks a property up. The exact spelling wins; up to case there must be only one. -/
def findProperty (e : Element) (name : String) (ignoreCase : Bool) : PropertyMatch :=
  match e.properties.find? fun p => p.name = name with
  | some p => .found p
  | none =>
    if ignoreCase then
      match e.properties.filter fun p => Text.sameName p.name name with
      | [] => .missing
      | [p] => .found p
      | _ => .ambiguous
    else .missing

/-- The declared spelling of a member: the exact one, else the first one up to case. -/
def findMember (e : Element) (name : String) (ignoreCase : Bool) : Option String :=
  match e.members.find? fun m => m = name with
  | some m => some m
  | none => if ignoreCase then e.members.find? fun m => Text.sameName m name else none

end Element

structure Schema where
  elements : List Element
  deriving DecidableEq, Repr

namespace Schema

/-- The element of the given kind that a reference means: by full name, else by name. -/
def referent (elements : List Element) (kind : ElementKind) (name : String) : Option Element :=
  match elements.find? fun e => e.kind = kind && e.fullName = name with
  | some e => some e
  | none => elements.find? fun e => e.kind = kind && e.name = name

/-- A reference by the full name of what it means, or the reference that means nothing. -/
def resolve (elements : List Element) (kind : ElementKind) (name : String) :
    Except (String × ElementKind) String :=
  match referent elements kind name with
  | some e => .ok e.fullName
  | none => .error (name, kind)

def qualify (elements : List Element) : EdmType → Except (String × ElementKind) EdmType
  | .primitive k => .ok (.primitive k)
  | .enum name => (resolve elements .enum name).map .enum
  | .complex name => (resolve elements .complex name).map .complex
  | .entity name => (resolve elements .entity name).map .entity
  | .collection item => (qualify elements item).map .collection

def qualifyProperty (elements : List Element) (owner : String) (p : Property) :
    Except SchemaError Property :=
  match qualify elements p.type with
  | .ok type => .ok { p with type := type }
  | .error (target, expected) => .error (.unknownReference owner p.name target expected)

def qualifyElement (elements : List Element) (e : Element) : Except SchemaError Element := do
  let properties ← e.properties.mapM (qualifyProperty elements e.fullName)
  return { e with properties := properties }

/-- The first name that repeats an earlier one, or one of those seen before. -/
def firstRepeated (seen : List String) : List String → Option String
  | [] => none
  | name :: rest => if name ∈ seen then some name else firstRepeated (name :: seen) rest

/-- The schema of a list of elements with their references resolved. -/
def ofElements (elements : List Element) : Except SchemaError Schema :=
  if elements = [] then .error .empty
  else match firstRepeated [] (elements.map Element.fullName) with
    | some name => .error (.duplicateElement name)
    | none => do
      let qualified ← elements.mapM (qualifyElement elements)
      return ⟨qualified⟩

def names (s : Schema) : List String :=
  s.elements.map Element.fullName

/-- The first element that answers to a name. -/
def findType (s : Schema) (name : String) : Option Element :=
  s.elements.find? fun e => e.answersTo name

def structuredType (s : Schema) (name : String) : Option Element :=
  (s.findType name).filter Element.isStructured

def enumType (s : Schema) (name : String) : Option Element :=
  (s.findType name).filter fun e => e.kind = .enum

/-- The structured element that answers to a name, or the names there are. -/
def requireType (s : Schema) (name : String) : Except SchemaError Element :=
  match s.structuredType name with
  | some e => .ok e
  | none => .error (.typeNotFound name s.names)

/-- Elements gathered under one namespace. -/
structure Builder where
  space : String
  elements : List Element

namespace Builder

def add (b : Builder) (kind : ElementKind) (name : String) (key : List String)
    (properties : List Property) (members : List String) (isOpen : Bool) : Builder :=
  { b with elements := b.elements ++ [⟨b.space, name, kind, key, properties, members, isOpen⟩] }

def withEntity (b : Builder) (name : String) (key : List String) (properties : List Property)
    (isOpen : Bool) : Builder :=
  b.add .entity name key properties [] isOpen

def withComplex (b : Builder) (name : String) (key : List String) (properties : List Property)
    (isOpen : Bool) : Builder :=
  b.add .complex name key properties [] isOpen

def withEnum (b : Builder) (name : String) (members : List String) : Builder :=
  b.add .enum name [] [] members false

def contains (b : Builder) (name : String) : Bool :=
  b.elements.any fun e => e.answersTo name

def build (b : Builder) : Except SchemaError Schema :=
  ofElements b.elements

end Builder

end Schema

end FilterGuard
