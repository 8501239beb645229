import FilterGuard.Binding
import FilterGuard.Expr.Parse
import FilterGuard.Rules.Document
import FilterGuard.Verdict

/-!
# Filters

The way from a filter text to its tree and its verdict. A front end makes a
bound expression of a text; the one for filter text parses and binds it.
-/

namespace FilterGuard

/-- What makes a bound expression of a text, given a schema, the type of the
filtered instances, and options. -/
abbrev FrontEnd := String → Schema → Element → Options → Except ExprError Bound

def bindText : FrontEnd := fun text schema type options => do
  Binding.bind schema type options (← Expr.parse text options.maxDepth)

namespace Tree

/-- The tree of a filter on instances of the named type, made with a front end. -/
def ofTextWith (frontEnd : FrontEnd) (filter : String) (schema : Schema) (type : String)
    (options : Options) : Except FilterError Tree := do
  let type ← (schema.requireType type).mapError .schema
  if Text.allBlank filter.toList then throw .emptyFilter
  let b ← (frontEnd filter schema type options).mapError (.expression filter)
  ofBound filter b schema options

def ofText (filter : String) (schema : Schema) (type : String) (options : Options) :
    Except FilterError Tree :=
  ofTextWith bindText filter schema type options

end Tree

namespace Rules

/-- The rules of a text; a blank text stands for no rules at all. -/
def loadIfAny (text : String) : Except FilterError (Option Rules) :=
  if Text.allBlank text.toList then .ok none else (load text).map some

end Rules

namespace Verdict

def onTree (t : Tree) (rules : Option Rules) : Verdict :=
  of t.inventory rules

/-- The verdict on a filter under rules given as text. Rules are read first. -/
def onFilter (filter : String) (schema : Schema) (type rules : String) :
    Except FilterError Verdict := do
  let rules ← Rules.loadIfAny rules
  let t ← Tree.ofText filter schema type {}
  return onTree t rules

end Verdict

end FilterGuard
