import FilterGuard.Edm
import FilterGuard.Text.Fold

/-!
# Functions

The functions that a filter can call: how many arguments they take, how many of
them, from the first, must be strings, and what they return.
-/

namespace FilterGuard

/-- The type of a call: a fixed one, or that of the first argument. -/
inductive Result where
  | fixed (kind : Primitive)
  | ofFirst
  deriving DecidableEq, Repr

structure Signature where
  name : String
  least : Nat
  most : Nat
  strings : Nat
  result : Result
  deriving DecidableEq, Repr

namespace Signature

def all : List Signature :=
  [⟨"contains", 2, 2, 2, .fixed .boolean⟩,
   ⟨"startswith", 2, 2, 2, .fixed .boolean⟩,
   ⟨"endswith", 2, 2, 2, .fixed .boolean⟩,
   ⟨"substringof", 2, 2, 2, .fixed .boolean⟩,
   ⟨"matchespattern", 2, 2, 2, .fixed .boolean⟩,
   ⟨"length", 1, 1, 1, .fixed .int32⟩,
   ⟨"indexof", 2, 2, 2, .fixed .int32⟩,
   ⟨"substring", 2, 3, 1, .fixed .string⟩,
   ⟨"tolower", 1, 1, 1, .fixed .string⟩,
   ⟨"toupper", 1, 1, 1, .fixed .string⟩,
   ⟨"trim", 1, 1, 1, .fixed .string⟩,
   ⟨"concat", 2, 2, 2, .fixed .string⟩,
   ⟨"year", 1, 1, 0, .fixed .int32⟩,
   ⟨"month", 1, 1, 0, .fixed .int32⟩,
   ⟨"day", 1, 1, 0, .fixed .int32⟩,
   ⟨"hour", 1, 1, 0, .fixed .int32⟩,
   ⟨"minute", 1, 1, 0, .fixed .int32⟩,
   ⟨"second", 1, 1, 0, .fixed .int32⟩,
   ⟨"fractionalseconds", 1, 1, 0, .fixed .decimal⟩,
   ⟨"totaloffsetminutes", 1, 1, 0, .fixed .int32⟩,
   ⟨"date", 1, 1, 0, .fixed .date⟩,
   ⟨"time", 1, 1, 0, .fixed .timeOfDay⟩,
   ⟨"now", 0, 0, 0, .fixed .dateTimeOffset⟩,
   ⟨"mindatetime", 0, 0, 0, .fixed .dateTimeOffset⟩,
   ⟨"maxdatetime", 0, 0, 0, .fixed .dateTimeOffset⟩,
   ⟨"round", 1, 1, 0, .ofFirst⟩,
   ⟨"floor", 1, 1, 0, .ofFirst⟩,
   ⟨"ceiling", 1, 1, 0, .ofFirst⟩]

/-- The function that a name means, in any case. -/
def find? (name : String) : Option Signature :=
  all.find? fun s => s.name == Text.fold name

end Signature

end FilterGuard
