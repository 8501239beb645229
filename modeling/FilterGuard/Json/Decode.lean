import FilterGuard.Json

/-!
# Taking values apart

What a document must have where a number, a record or a tag is read. A record is
written as an object or as the list of its fields in order; an object may have
fields that nobody knows, but none of the known ones twice.
-/

namespace FilterGuard.Json

def asString? : Json → Option String
  | string value => some value
  | _ => none

def asBool? : Json → Option Bool
  | bool value => some value
  | _ => none

/-- A number below `bound`, written without point and exponent. -/
def asNat? (bound : Nat) : Json → Option Nat
  | integer value => if 0 ≤ value ∧ value < bound then some value.toNat else none
  | _ => none

def asInt64? : Json → Option Int64
  | integer value =>
    if Int64.minValue.toInt ≤ value ∧ value ≤ Int64.maxValue.toInt then some (Int64.ofInt value)
    else none
  | _ => none

def asUInt32? (v : Json) : Option UInt32 :=
  (v.asNat? UInt32.size).map UInt32.ofNat

def asArray? : Json → Option (List Json)
  | array items => some items
  | _ => none

def asObject? : Json → Option (List (String × Json))
  | object fields => some fields
  | _ => none

/-- A value or null. -/
def nullable {α : Type u} (f : Json → Option α) : Json → Option (Option α)
  | null => some none
  | v => (f v).map some

/-- The values under `names`, each missing or there once. -/
def record? (names : List String) : Json → Option (List (Option Json))
  | object fields =>
    if names.any fun n => 1 < (fields.filter fun f => f.1 == n).length then none
    else some (names.map fun n => fields.lookup n)
  | array items =>
    if items.length ≤ names.length then
      some (items.map some ++ List.replicate (names.length - items.length) none)
    else none
  | _ => none

/-- A tag without content: its name, or an object that gives it null. -/
def asTag? : Json → Option String
  | string name => some name
  | object [(name, null)] => some name
  | _ => none

/-- The field under `name`, the first one. -/
def field? (name : String) : Json → Option Json
  | object fields => fields.lookup name
  | _ => none

end FilterGuard.Json
