import FilterGuard.Json.Decode
import FilterGuard.Json.Read
import FilterGuard.Json.Write
import FilterGuard.Schema

/-!
# Schema documents

The JSON form of types, elements and schemas. What is empty or false by default
may be left out of an element.
-/

namespace FilterGuard

/-- A primitive kind by its tag. -/
def Primitive.ofJson (v : Json) : Option Primitive := do
  ofTag? (← v.asTag?)

namespace EdmType

/-- A type is an object with one field, which names the sort of type. -/
def ofJson : Json → Option EdmType
  | .object [(sort, content)] =>
    if sort = "primitive" then (Primitive.ofJson content).map .primitive
    else if sort = "enum" then content.asString?.map .enum
    else if sort = "complex" then content.asString?.map .complex
    else if sort = "entity" then content.asString?.map .entity
    else if sort = "collection" then (ofJson content).map .collection
    else none
  | _ => none

def toJson : EdmType → Json
  | primitive k => .object [("primitive", .string k.tag)]
  | enum name => .object [("enum", .string name)]
  | complex name => .object [("complex", .string name)]
  | entity name => .object [("entity", .string name)]
  | collection item => .object [("collection", item.toJson)]

end EdmType

namespace ElementKind

def tag : ElementKind → String
  | entity => "entityType"
  | complex => "complexType"
  | enum => "enumType"

def ofTag? (text : String) : Option ElementKind :=
  [entity, complex, enum].find? fun k => k.tag == text

end ElementKind

namespace Property

def ofJson (v : Json) : Option Property := do
  match (← v.record? ["name", "type"]) with
  | [some name, some type] => return ⟨← name.asString?, ← EdmType.ofJson type⟩
  | _ => none

def toJson (p : Property) : Json :=
  .object [("name", .string p.name), ("type", p.type.toJson)]

end Property

namespace Element

/-- A list of which every item can be read; nothing is the empty list. -/
def listOf {α : Type} (f : Json → Option α) (v : Option Json) : Option (List α) :=
  match v with
  | none => some []
  | some v => do (← v.asArray?).mapM f

def ofJson (v : Json) : Option Element := do
  match (← v.record? ["namespace", "name", "kind", "key", "properties", "members", "open"]) with
  | [some space, some name, some kind, key, properties, members, isOpen] =>
    return {
      space := ← space.asString?
      name := ← name.asString?
      kind := ← ElementKind.ofTag? (← kind.asTag?)
      key := ← listOf Json.asString? key
      properties := ← listOf Property.ofJson properties
      members := ← listOf Json.asString? members
      isOpen := ← isOpen.elim (some false) Json.asBool? }
  | _ => none

/-- A field that is left out when its list is empty. -/
def listField (name : String) (items : List Json) : List (String × Json) :=
  if items.isEmpty then [] else [(name, .array items)]

def toJson (e : Element) : Json :=
  .object ([("namespace", .string e.space), ("name", .string e.name), ("kind", .string e.kind.tag)]
    ++ listField "key" (e.key.map .string)
    ++ listField "properties" (e.properties.map Property.toJson)
    ++ listField "members" (e.members.map .string)
    ++ [("open", .bool e.isOpen)])

end Element

namespace Schema

def ofJson (v : Json) : Except SchemaError Schema :=
  let elements := do
    match (← v.record? ["elements"]) with
    | [some elements] => (← elements.asArray?).mapM Element.ofJson
    | _ => none
  match elements with
  | some elements => ofElements elements
  | none => .error .unreadable

def load (text : String) : Except SchemaError Schema :=
  match Json.read text with
  | some v => ofJson v
  | none => .error .unreadable

def toJson (s : Schema) : Json :=
  .object [("elements", .array (s.elements.map Element.toJson))]

end Schema

end FilterGuard
