import FilterGuard.FilterError
import FilterGuard.NameMap

/-!
# Rules

What a filter may use, and how often: operators, properties, and operators on a
property. A name without a count is allowed without bounds, and a property
without a list of operators takes all of them. Rules come from a rule text by
putting in one fragment after the other.
-/

namespace FilterGuard

/-- Names that are allowed, with the bounds that some of them have. -/
abbrev Allowed := NameMap (Option Count)

structure Rules where
  operators : Allowed
  properties : Allowed
  /-- The operators that are allowed on a property; none listed at all allows every one. -/
  propertyOperators : NameMap (Option Allowed)

namespace Rules

def empty : Rules := ⟨.empty, .empty, .empty⟩

instance : Inhabited Rules := ⟨empty⟩

instance : BEq Rules where
  beq r s := r.operators == s.operators && r.properties == s.properties
    && r.propertyOperators == s.propertyOperators

def isEmpty (r : Rules) : Bool :=
  r.operators.isEmpty && r.properties.isEmpty && r.propertyOperators.isEmpty

def withOperator (r : Rules) (name : String) (count : Option Count) : Rules :=
  { r with operators := r.operators.insert name count }

def withProperty (r : Rules) (path : String) (count : Option Count) : Rules :=
  { r with properties := r.properties.insert path count }

/-- Allows an operator on a property. Operators must be listed from then on. -/
def withPropertyOperator (r : Rules) (path operator : String) (count : Option Count) : Rules :=
  { r with
    propertyOperators := r.propertyOperators.upsert path fun old =>
      some ((old.join.getD .empty).insert operator count) }

def withAnyPropertyOperator (r : Rules) (path : String) : Rules :=
  { r with propertyOperators := r.propertyOperators.insert path none }

/-! ## From rule text -/

/-- Allows a name; its count is combined with an earlier one. -/
def allow (m : Allowed) (name : String) (count : Count) : Allowed :=
  m.upsert name fun
    | some (some old) => some (old.combine count)
    | _ => some count

def addProperty (r : Rules) (f : Fragment) : Rules :=
  { r with
    properties := allow r.properties f.name f.count
    propertyOperators :=
      if f.operators = [] then r.propertyOperators
      else r.propertyOperators.upsert f.name fun old =>
        some (f.operators.foldl (fun m op => allow m op f.count) (old.join.getD .empty)) }

/-- The rules with a fragment put in. An operator must not have a rule yet. -/
def add (r : Rules) (f : Fragment) : Except FilterError Rules :=
  match f.kind with
  | .operator =>
    if r.operators.contains f.name then .error (.duplicateRule f.name)
    else .ok (r.withOperator f.name (some f.count))
  | .property => .ok (r.addProperty f)

def ofFragments (fs : List Fragment) : Except FilterError Rules :=
  fs.foldlM add empty

def ofText (text : List Char) : Except FilterError Rules :=
  match Fragment.readAll text with
  | .ok fs => ofFragments fs
  | .error e => .error (.ruleFormat (String.ofList text) (.fragment e))

end Rules

end FilterGuard
