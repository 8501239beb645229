import FilterGuard.Rules
import FilterGuard.Tree.Inventory

/-!
# Verdicts

What an inventory does that rules do not allow. Each kind of rule is checked
only if there is one of the kind. Every violation has a message, and a message
that comes up again is not repeated.
-/

namespace FilterGuard

inductive Subject where
  | operator
  | property
  | operationOn (owner : String)
  deriving DecidableEq, Repr

/-- Which bound a number of uses misses. -/
inductive Miss where
  | exactly
  | least
  | most
  deriving DecidableEq, Repr

inductive Violation where
  | notAllowed (subject : Subject) (name : String)
  | missing (subject : Subject) (name : String)
  | outside (subject : Subject) (name : String) (miss : Miss) (bound used : UInt32)
  deriving DecidableEq, Repr

def Subject.describe (subject : Subject) (name : String) : String :=
  match subject with
  | operator => "Operator '" ++ name ++ "'"
  | property => "Property '" ++ name ++ "'"
  | operationOn owner => "Operation '" ++ name ++ "' applied to property '" ++ owner ++ "'"

def Subject.missing (subject : Subject) (name : String) : String :=
  match subject with
  | operator => "Missing required operator '" ++ name ++ "'."
  | property => "Missing required property '" ++ name ++ "'."
  | operationOn owner =>
    "Missing required operation '" ++ name ++ "' applied to property '" ++ owner ++ "'."

def Miss.phrase : Miss → String
  | exactly => "must be used exactly"
  | least => "must be used at least"
  | most => "can be used at most"

def times (n : UInt32) : String :=
  toString n ++ (if n = 1 then " time" else " times")

def Violation.message : Violation → String
  | notAllowed subject name => subject.describe name ++ " is not allowed."
  | missing subject name => subject.missing name
  | outside subject name miss bound used =>
    subject.describe name ++ " " ++ miss.phrase ++ " " ++ times bound ++ ", but it is used "
      ++ times used ++ "."

namespace Verdict

/-- How often a name is used, in any case, or the greatest 32-bit number if that is less. -/
def usage (used : List String) (name : String) : UInt32 :=
  UInt32.ofNat (min (used.countP fun u => Text.sameName u name) (UInt32.size - 1))

/-- How a number of uses misses a count. A use that is wanted and missing comes first. -/
def countViolation (subject : Subject) (name : String) (count : Count) (used : UInt32) :
    Option Violation :=
  if 0 < count.min ∧ used = 0 then some (.missing subject name)
  else if 0 < count.min ∧ count.min = count.max ∧ used ≠ count.max then
    some (.outside subject name .exactly count.max used)
  else if 0 < count.min ∧ used < count.min then
    some (.outside subject name .least count.min used)
  else if 0 < count.max ∧ count.max < used then
    some (.outside subject name .most count.max used)
  else none

def forbidden (subject : Subject) (used : List String) (allowed : Allowed) : List Violation :=
  (used.filter fun name => !allowed.contains name).map (.notAllowed subject)

/-- The names whose number of uses misses their count. -/
def miscounted (subject : Subject) (used : List String) (allowed : Allowed) : List Violation :=
  allowed.entries.filterMap fun e =>
    e.2.bind fun count => countViolation subject e.1 count (usage used e.1)

/-- The operators that are used on a property and not allowed there. -/
def forbiddenOn (declared : NameMap (Option Allowed)) (property : String) (used : List String) :
    List Violation :=
  match declared.get? property with
  | none => [.notAllowed .property property]
  | some none => []
  | some (some allowed) => forbidden (.operationOn property) used allowed

def checkOperators (inv : Inventory) (r : Rules) : List Violation :=
  if r.operators.isEmpty then []
  else forbidden .operator inv.operators r.operators
    ++ miscounted .operator inv.operators r.operators

def checkProperties (inv : Inventory) (r : Rules) : List Violation :=
  if r.properties.isEmpty then []
  else forbidden .property inv.properties r.properties
    ++ miscounted .property inv.properties r.properties

def checkPropertyOperators (inv : Inventory) (r : Rules) : List Violation :=
  if r.propertyOperators.isEmpty then []
  else (inv.propertyOperators.entries.flatMap fun e => forbiddenOn r.propertyOperators e.1 e.2)
    ++ (r.propertyOperators.entries.flatMap fun e =>
      e.2.elim [] (miscounted (.operationOn e.1) (inv.operatorsFor e.1)))

def violations (inv : Inventory) (r : Rules) : List Violation :=
  checkOperators inv r ++ checkProperties inv r ++ checkPropertyOperators inv r

end Verdict

/-- What comes of checking an inventory: messages, none of them twice. -/
structure Verdict where
  messages : List String
  deriving DecidableEq, Repr

namespace Verdict

def ofMessages (messages : List String) : Verdict :=
  ⟨messages.eraseDups⟩

/-- Without rules everything passes. -/
def of (inv : Inventory) (rules : Option Rules) : Verdict :=
  ofMessages (rules.elim [] fun r => (violations inv r).map Violation.message)

def passed (v : Verdict) : Bool :=
  v.messages.isEmpty

theorem mem_messages_of {inv : Inventory} {r : Rules} {m : String} :
    m ∈ (Verdict.of inv (some r)).messages ↔ ∃ v ∈ violations inv r, v.message = m := by
  simp only [Verdict.of, ofMessages, List.mem_eraseDups, Option.elim_some, List.mem_map]

theorem passed_of_iff {inv : Inventory} {r : Rules} :
    (Verdict.of inv (some r)).passed = true ↔ violations inv r = [] := by
  rw [passed, List.isEmpty_iff, List.eq_nil_iff_forall_not_mem, List.eq_nil_iff_forall_not_mem]
  simp only [mem_messages_of]
  constructor
  · exact fun h v hv => h _ ⟨v, hv, rfl⟩
  · rintro h m ⟨v, hv, -⟩
    exact h v hv

def failed (v : Verdict) : Bool :=
  !v.passed

def errors (v : Verdict) : Option (List String) :=
  if v.passed then none else some v.messages

def details (v : Verdict) : Option String :=
  v.errors.map " ".intercalate

end Verdict

end FilterGuard
