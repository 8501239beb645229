import FilterGuard.NameMap
import FilterGuard.Tree

/-!
# Inventories

What a filter uses: the names of its operators, its properties, and for each
property the operators around its occurrences, innermost first. Repetitions are
kept, so uses can be counted.
-/

namespace FilterGuard

structure Inventory where
  operators : List String
  properties : List String
  propertyOperators : NameMap (List String)

namespace Inventory

/-- The operators around `property`, in any case; none if it is not used. -/
def operatorsFor (inv : Inventory) (property : String) : List String :=
  (inv.propertyOperators.get? property).getD []

end Inventory

namespace Tree

def enclosing (t : Tree) (id : Nat) : List String :=
  (t.ancestors id).filterMap Node.operator?

/-- The operators around each property, put in node by node. -/
def propertyOperators (t : Tree) : NameMap (List String) :=
  t.preOrder.foldl (fun m n =>
    match n.property? with
    | none => m
    | some p => m.upsert p fun old => old.getD [] ++ t.enclosing n.id) .empty

def inventory (t : Tree) : Inventory where
  operators := t.preOrder.filterMap Node.operator?
  properties := t.preOrder.filterMap Node.property?
  propertyOperators := t.propertyOperators

end Tree

end FilterGuard
