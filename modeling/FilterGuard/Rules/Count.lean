import FilterGuard.Json.Decode
import FilterGuard.Json.Read
import FilterGuard.Text.Fold

/-!
# Counts

How often something may be used. A least number of zero asks for nothing, and a
greatest number of zero sets no bound.
-/

namespace FilterGuard

structure Count where
  min : UInt32
  max : UInt32
  deriving DecidableEq, Repr

namespace Count

def free : Count := ⟨0, 0⟩

instance : Inhabited Count := ⟨free⟩

def exactly (n : UInt32) : Count := ⟨n, n⟩

def atLeast (n : UInt32) : Count := ⟨n, 0⟩

def atMost (n : UInt32) : Count := ⟨0, n⟩

def isFree (c : Count) : Bool :=
  c.min = 0 && c.max = 0

/-- The sum, or the greatest 32-bit number if that is less. -/
def saturatingAdd (m n : UInt32) : UInt32 :=
  if m.toNat + n.toNat < UInt32.size then m + n else UInt32.ofNat (UInt32.size - 1)

theorem toNat_saturatingAdd (m n : UInt32) :
    (saturatingAdd m n).toNat = Min.min (m.toNat + n.toNat) (UInt32.size - 1) := by
  unfold saturatingAdd
  split
  · next h =>
    rw [UInt32.toNat_add, Nat.mod_eq_of_lt h]
    omega
  · next h =>
    have hm : (UInt32.ofNat (UInt32.size - 1)).toNat = UInt32.size - 1 := rfl
    omega

/-- Two counts for one thing: the smaller least number and the sum of the greatest ones. -/
def combine (c d : Count) : Count :=
  ⟨if c.min ≤ d.min then c.min else d.min, saturatingAdd c.max d.max⟩

def display (c : Count) : String :=
  toString c.min ++ "," ++ toString c.max

/-- The fields of a count, each in any case and the last one taken. -/
def ofFields (c : Count) : List (String × Json) → Option Count
  | [] => some c
  | (key, v) :: rest =>
    if Text.sameName key "min" then do ofFields { c with min := ← v.asUInt32? } rest
    else if Text.sameName key "max" then do ofFields { c with max := ← v.asUInt32? } rest
    else ofFields c rest

def ofJson (v : Json) : Option Count := do
  ofFields free (← v.asObject?)

def load (text : String) : Option Count :=
  Json.read text >>= ofJson

def toJson (c : Count) : Json :=
  .object [("min", .integer c.min.toNat), ("max", .integer c.max.toNat)]

end Count

end FilterGuard
