import FilterGuard.Bound.Render

/-!
# Property paths

The path of a property is read along its owners, as long as they are single
complex or navigation properties. Inside a quantifier the path of the collection
comes first, and a variable stands for that collection.
-/

namespace FilterGuard.Bound

/-- A path behind the one in front of it, if there is one. -/
def underScope (scope : Option String) (path : String) : String :=
  match scope with
  | some scope => if scope = "" then path else scope ++ "/" ++ path
  | none => path

/-- The segments of the owners of a property, outermost first. -/
def ownerSegments : Bound → List String
  | convert source _ => ownerSegments source
  | access sort owner name =>
    if (sort = .complex ∨ sort = .navigation) ∧ name ≠ "" then
      match owner with
      | none => [name]
      | some owner => ownerSegments owner ++ [name]
    else []
  | _ => []

def path (scope : Option String) : Bound → Option String
  | convert source _ => path scope source
  | var name _ => some ((scope.filter (· ≠ "")).getD name)
  | access _ owner name =>
    some (underScope scope ("/".intercalate ((owner.elim [] ownerSegments) ++ [name])))
  | _ => none

/-- An operand as reports show it: a value, a path, or else its text. -/
def operandText (scope : Option String) (b : Bound) : String :=
  match b.unconverted with
  | const .null => "null"
  | const (.string value) => "\"" ++ value ++ "\""
  | const (.enum _ member) => "'" ++ member ++ "'"
  | const value => value.scalar
  | b => (path scope b).getD b.render

end FilterGuard.Bound
