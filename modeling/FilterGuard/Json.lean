/-!
# JSON values

An object keeps its fields in the order of the document, repetitions included,
since some readers refuse a repeated field and others take the last one. A part
of a document that is well formed but stands for no value is `unreadable`: a
string with half of a surrogate pair, a number beyond the range of doubles, or
a container too deep inside others. Readers that skip such a part accept it.
-/

namespace FilterGuard

inductive Json where
  | null
  | bool (value : Bool)
  | integer (value : Int)
  /-- A number written with a point or an exponent, or the negative zero. -/
  | real (text : String)
  | string (value : String)
  | array (items : List Json)
  | object (fields : List (String × Json))
  | unreadable
  deriving Repr, Inhabited

namespace Json

mutual

/-- Whether every part of a value is readable. -/
def isReadable : Json → Bool
  | array items => itemsReadable items
  | object fields => fieldsReadable fields
  | unreadable => false
  | _ => true

def itemsReadable : List Json → Bool
  | [] => true
  | item :: rest => isReadable item && itemsReadable rest

def fieldsReadable : List (String × Json) → Bool
  | [] => true
  | (_, value) :: rest => isReadable value && fieldsReadable rest

end

/-- Puts a field in its place among fields sorted by key; a field with the same
key gives way. -/
def putSorted (key : String) (value : Json) : List (String × Json) → List (String × Json)
  | [] => [(key, value)]
  | (k, v) :: rest =>
    if key = k then (key, value) :: rest
    else if key < k then (key, value) :: (k, v) :: rest
    else (k, v) :: putSorted key value rest

/-- Fields sorted by key, the last of those with one key. -/
def sortFields (fields : List (String × Json)) : List (String × Json) :=
  fields.foldl (fun sorted f => putSorted f.1 f.2 sorted) []

mutual

/-- The value with the fields of every object sorted by key. -/
def sorted : Json → Json
  | array items => array (sortedItems items)
  | object fields => object (sortFields (sortedFields fields))
  | other => other

def sortedItems : List Json → List Json
  | [] => []
  | item :: rest => sorted item :: sortedItems rest

def sortedFields : List (String × Json) → List (String × Json)
  | [] => []
  | (key, value) :: rest => (key, sorted value) :: sortedFields rest

end

end Json

end FilterGuard
