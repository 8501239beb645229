import FilterGuard.ExprError
import FilterGuard.Rules.Fragment
import FilterGuard.Schema

/-!
# What can go wrong with filters and rules

Errors of the parts, with the filter or the rules they arose from.
-/

namespace FilterGuard

inductive RuleError where
  /-- The document does not have the form of rules. -/
  | document
  | fragment (cause : FragmentError)
  deriving DecidableEq, Repr

def RuleError.message : RuleError → String
  | document => "invalid rule document"
  | fragment cause => cause.message

inductive FilterError where
  | schema (cause : SchemaError)
  | emptyFilter
  | expression (filter : String) (cause : ExprError)
  | tooDeep (limit : Nat)
  | ruleFormat (input : String) (cause : RuleError)
  | duplicateRule (name : String)
  deriving DecidableEq, Repr

def FilterError.message : FilterError → String
  | schema cause => cause.message
  | emptyFilter => "filter expression is empty"
  | expression filter cause => "cannot parse filter expression '" ++ filter ++ "': " ++ cause.message
  | tooDeep limit => "filter tree exceeds depth " ++ toString limit
  | ruleFormat input cause =>
    "cannot deserialize filter rules from '" ++ input ++ "': " ++ cause.message
  | duplicateRule name => "operator rule '" ++ name ++ "' is declared more than once"

end FilterGuard
