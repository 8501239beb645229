import FilterGuard.Rules.Count
import FilterGuard.Text.Blank
import FilterGuard.Text.Fields
import FilterGuard.Text.Numeral

/-!
# Rule text

Fragments with bars between them. A fragment names an operator or a property,
and may say which of them before a colon and how often after one. A property may
list in brackets the operators that can be applied to it.
-/

namespace FilterGuard

open Text

inductive RuleKind where
  | operator
  | property
  deriving DecidableEq, Repr

structure Fragment where
  kind : RuleKind
  name : String
  count : Count
  operators : List String
  deriving DecidableEq, Repr

inductive FragmentError where
  | invalidCount (fragment count : String) (fault : BoundFault)
  | countShape (fragment count : String)
  | malformedBracket (fragment : String)
  | emptyName (fragment : String)
  deriving DecidableEq, Repr

def FragmentError.message : FragmentError → String
  | invalidCount fragment count _ => "invalid count '" ++ count ++ "' in rule '" ++ fragment ++ "'"
  | countShape fragment count =>
    "count '" ++ count ++ "' in rule '" ++ fragment ++ "' must be 'min,max' or a single value"
  | malformedBracket fragment => "malformed operator list in rule '" ++ fragment ++ "'"
  | emptyName fragment => "rule '" ++ fragment ++ "' does not name an operator or property"

namespace Fragment

/-- The names that are operators when a fragment does not say what it is about. -/
def operatorWords : List String :=
  ["not", "and", "or", "eq", "ne", "gt", "ge", "lt", "le", "in", "has",
   "startswith", "endswith", "contains", "substringof", "any", "all"]

/-- Whether a text, blanks aside, has the shape of a count: digits around at most one comma. -/
def looksLikeCount (cs : List Char) : Bool :=
  match fields ',' (cs.filter fun c => !isBlank c) with
  | [n] => n.all Char.isDigit
  | [min, max] => min.all Char.isDigit && max.all Char.isDigit
  | _ => false

/-- A single number is both bounds; a missing bound is zero. -/
def readCount (fragment count : List Char) : Except FragmentError Count :=
  let bound (cs : List Char) : Except FragmentError UInt32 :=
    (readBound (trim cs)).mapError (.invalidCount (String.ofList fragment) (String.ofList count))
  match fields ',' count with
  | [n] => (bound n).map Count.exactly
  | [min, max] => do return ⟨← bound min, ← bound max⟩
  | _ => .error (.countShape (String.ofList fragment) (String.ofList count))

/-- A name and the operators in the brackets behind it. -/
def readBrackets (fragment name : List Char) : Except FragmentError (List Char × List String) :=
  let malformed := .error (.malformedBracket (String.ofList fragment))
  let base := name.takeWhile (· ≠ '[')
  match name.dropWhile (· ≠ '[') with
  | [] => if base.contains ']' then malformed else .ok (base, [])
  | _ :: behind =>
    let inner := behind.takeWhile (· ≠ ']')
    match behind.dropWhile (· ≠ ']') with
    | [] => malformed
    | _ :: rest =>
      if inner.contains '[' || !allBlank rest then malformed
      else
        let operators := ((fields ',' inner).map trim).filter (· ≠ [])
        .ok (trim base, operators.map String.ofList)

/-- What a name is when nothing says so. -/
def kindOf (name : List Char) : RuleKind :=
  if name.contains '/' then .property
  else if operatorWords.any fun word => sameName word (String.ofList name) then .operator
  else .property

/-- The parts of a fragment: what says its kind, the name, and the count. -/
def parts (fragment : List Char) : Option (List Char) × List Char × Option (List Char) :=
  match (fields ':' fragment).map trim with
  | mark :: name :: count :: _ => (some mark, name, some count)
  | [first, second] =>
    if looksLikeCount second then (none, first, some second) else (some first, second, none)
  | [name] => (none, name, none)
  | [] => (none, [], none)

/-- The kind that the first letter of a mark stands for, else that of the name. -/
def markedKind (mark : Option (List Char)) (name : List Char) : RuleKind :=
  match mark.bind List.head? with
  | some 'o' | some 'O' => .operator
  | some 'p' | some 'P' => .property
  | _ => kindOf name

def read (text : List Char) : Except FragmentError Fragment := do
  let fragment := trim text
  let (mark, name, count) := parts fragment
  let count ← match count with
    | some count => readCount fragment count
    | none => .ok .free
  let (base, operators) ← readBrackets fragment name
  if base = [] then throw (.emptyName (String.ofList fragment))
  let kind := markedKind mark base
  if kind = .operator ∧ (name.contains '[' ∨ name.contains ']') then
    throw (.malformedBracket (String.ofList fragment))
  return ⟨kind, String.ofList base, count, operators⟩

/-- Reads the fragments of a rule text that are not blank. -/
def readAll (text : List Char) : Except FragmentError (List Fragment) :=
  ((fields '|' text).filter fun f => !allBlank f).mapM read

end Fragment

end FilterGuard
