import FilterGuard.Json.Decode
import FilterGuard.Json.Read
import FilterGuard.Json.Write
import FilterGuard.Rules

/-!
# Rule documents

The JSON form of rules. A document is read with the fields of its objects sorted
by key, so the spelling that comes first in that order is kept. What is null
allows everything.
-/

namespace FilterGuard

namespace NameMap

variable {V : Type}

/-- A map from an object, each field read by `f`. -/
def ofJson (f : Json → Option V) (v : Json) : Option (NameMap V) := do
  let pairs ← (← v.asObject?).mapM fun p => (f p.2).map fun value => (p.1, value)
  return ofList pairs

def toJson (f : V → Json) (m : NameMap V) : Json :=
  .object (m.entries.map fun e => (e.1, f e.2))

end NameMap

namespace Rules

def allowedOfJson (v : Json) : Option Allowed :=
  NameMap.ofJson (Json.nullable Count.ofJson) v

def allowedToJson (m : Allowed) : Json :=
  m.toJson fun count => count.elim .null Count.toJson

/-- The rules with one field of a document put in; a later field of the same name
takes its place. -/
def withField (r : Rules) (key : String) (v : Json) : Option Rules :=
  if Text.sameName key "operators" then do
    return { r with operators := (← Json.nullable allowedOfJson v).getD .empty }
  else if Text.sameName key "properties" then do
    return { r with properties := (← Json.nullable allowedOfJson v).getD .empty }
  else if Text.sameName key "propertyOperators" then do
    let m ← Json.nullable (NameMap.ofJson (Json.nullable allowedOfJson)) v
    return { r with propertyOperators := m.getD .empty }
  else some r

def ofJson (v : Json) : Option Rules := do
  guard v.isReadable
  (← v.sorted.asObject?).foldlM (fun r f => r.withField f.1 f.2) empty

def toJson (r : Rules) : Json :=
  .object [("operators", allowedToJson r.operators),
    ("properties", allowedToJson r.properties),
    ("propertyOperators", r.propertyOperators.toJson fun m => m.elim .null allowedToJson)]

/-- The rules of a text: a document if it starts like one, else a rule text.
A blank text has no rules in it. -/
def load (text : String) : Except FilterError Rules :=
  match Text.trim text.toList with
  | [] => .ok empty
  | c :: cs =>
    if c = '\x7b' ∨ c = '[' then
      match Json.readChars (c :: cs) >>= ofJson with
      | some r => .ok r
      | none => .error (.ruleFormat (String.ofList (c :: cs)) .document)
    else ofText (c :: cs)

end Rules

end FilterGuard
