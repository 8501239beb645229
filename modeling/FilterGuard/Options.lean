import FilterGuard.Json.Decode
import FilterGuard.Json.Read

/-!
# Options

How names are matched, and how deep a filter may nest.
-/

namespace FilterGuard

structure Options where
  /-- Names of properties and members match up to case. -/
  ignoreCase : Bool := true
  maxDepth : Nat := 256
  deriving DecidableEq, Repr

namespace Options

instance : Inhabited Options := ⟨{}⟩

/-- Limits are 64-bit numbers. -/
def ofJson (v : Json) : Option Options := do
  match (← v.record? ["case_insensitive", "max_depth"]) with
  | [ignoreCase, maxDepth] =>
    return {
      ignoreCase := ← ignoreCase.elim (some true) Json.asBool?
      maxDepth := ← maxDepth.elim (some 256) (Json.asNat? UInt64.size) }
  | _ => none

def load (text : String) : Option Options :=
  Json.read text >>= ofJson

def toJson (o : Options) : Json :=
  .object [("case_insensitive", .bool o.ignoreCase), ("max_depth", .integer o.maxDepth)]

end Options

end FilterGuard
