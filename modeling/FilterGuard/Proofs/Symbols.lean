import FilterGuard.Proofs.Breach
import FilterGuard.Proofs.Inventory
import FilterGuard.Proofs.Paths

/-!
# What an allow-list reaches

The operators and functions of an expression, wherever they stand in it. Nodes
show the arguments of a function and the items of a list as texts, so a list of
allowed operators speaks about all the others.
-/

namespace FilterGuard
open Text

mutual

/-- The operators and functions of an expression. Those in arguments and in lists
are left out unless the search is `deep`. -/
def Bound.symbols (deep : Bool) : Bound → List String
  | convert source _ => source.symbols deep
  | unary op operand => op.symbol :: operand.symbols deep
  | binary op left right => op.symbol :: (left.symbols deep ++ right.symbols deep)
  | within item candidates => "in" :: (item.symbols deep ++ candidates.symbols deep)
  | call function args => function :: if deep then symbolsEach deep args else []
  | quantified quantifier source _ body => quantifier.symbol :: (source.symbols deep ++ body.symbols deep)
  | access _ (some owner) _ => owner.symbols deep
  | list items => if deep then symbolsEach deep items else []
  | _ => []

def Bound.symbolsEach (deep : Bool) : List Bound → List String
  | [] => []
  | b :: bs => b.symbols deep ++ symbolsEach deep bs

end

theorem Bound.IsOwner.symbols_eq {vars : List String} {b : Bound} (h : b.IsOwner vars) (deep : Bool) :
    b.symbols deep = [] := by
  induction h with
  | var => rfl
  | complex _ _ ih => exact ih
  | navigation _ _ ih => exact ih

theorem Bound.IsPath.symbols_eq {vars : List String} {b : Bound} (h : b.IsPath vars) (deep : Bool) :
    b.symbols deep = [] := by
  cases h with
  | var => rfl
  | access _ ho _ => exact ho.symbols_eq deep

/-- The nodes of an orderly expression show its operators and functions, those
outside of arguments and lists. -/
theorem Bound.Orderly.operatorNames_eq {vars : List String} {b : Bound} (h : b.Orderly vars) :
    b.operatorNames.map fold = (b.symbols false).map fold := by
  induction h with
  | const => rfl
  | convert _ _ ih => exact ih
  | unary op _ ih => exact congrArg (fold op.symbol :: ·) ih
  | binary op _ _ ihl ihr =>
    rw [operatorNames, symbols, List.map_cons, List.map_cons, List.map_append, List.map_append, ihl, ihr]
  | call function _ _ => simp [operatorNames, symbols]
  | within _ _ ihi ihc =>
    rw [operatorNames, symbols, List.map_cons, List.map_cons, List.map_append, List.map_append, ihi, ihc]
  | quantified quantifier var hs _ ih =>
    rw [operatorNames, symbols, hs.isPath.symbols_eq, List.nil_append, List.map_cons, List.map_cons, ih]
  | list => rfl
  | path hp =>
    rw [hp.symbols_eq]
    cases hp <;> rfl

namespace Verdict

theorem listed_of_passed {inv : Inventory} {r : Rules} (hr : r.operators.entries ≠ [])
    (hp : (Verdict.of inv (some r)).passed = true) : ∀ name ∈ inv.operators, r.operators.Names name := by
  intro name hn
  refine Classical.byContradiction fun hl => ?_
  have hv : Violation.notAllowed .operator name ∈ violations inv r := by
    refine List.mem_append_left _ (List.mem_append_left _ ((mem_if_rules _ _ _).mpr ⟨hr, ?_⟩))
    exact List.mem_append_left _ ((mem_forbidden _ _ _ _).mpr ⟨name, hn, hl, rfl⟩)
  have hm := List.mem_eraseDups.mpr (List.mem_map_of_mem (f := Violation.message) hv)
  rw [passed, List.isEmpty_iff] at hp
  rw [show ((violations inv r).map Violation.message).eraseDups = [] from hp] at hm
  cases hm

/-- A filter read from a text that passes has no operator and no function that is
not allowed, unless in the arguments of a function or in a list. -/
theorem symbols_allowed {filter : String} {schema : Schema} {type : String} {options : Options} {t : Tree}
    (h : Tree.ofText filter schema type options = .ok t) {r : Rules} (hr : r.operators.entries ≠ [])
    (hp : (onTree t (some r)).passed = true) : ∀ name ∈ t.bound.symbols false, r.operators.Names name := by
  obtain ⟨_, -, hb, ht⟩ := Tree.ofText_ok h
  have ho := (orderly_of_bindText hb).operatorNames_eq
  intro name hn
  have hm : fold name ∈ t.bound.operatorNames.map fold := ho ▸ List.mem_map_of_mem hn
  obtain ⟨shown, hs, hf⟩ := List.mem_map.mp hm
  rw [← Tree.operators_eq (Tree.has_ofBound ht)] at hs
  exact (r.operators.names_congr (sameName_iff.mpr hf)).mp (listed_of_passed hr hp shown hs)

def searches : Rules :=
  ((Rules.empty.withOperator "And" none).withOperator "contains" none).withOperator "in" (some (.atMost 1))

/-- Arguments and lists hide what is in them. -/
theorem symbols_hidden :
    ∃ t, Tree.ofText "contains(tolower(email), 'x') and email in ('y', concat(name, 'z'))" users "User" {} = .ok t ∧
      searches.operators.entries ≠ [] ∧ (onTree t (some searches)).passed = true ∧
      t.bound.symbols true = ["and", "contains", "tolower", "in", "concat"] ∧
      ¬ searches.operators.Names "tolower" ∧ ¬ searches.operators.Names "concat" := by
  have h : (Tree.ofText "contains(tolower(email), 'x') and email in ('y', concat(name, 'z'))" users "User"
      {}).toOption.any (fun t => (onTree t (some searches)).passed &&
        t.bound.symbols true == ["and", "contains", "tolower", "in", "concat"]) = true := by
    decide +kernel
  obtain ⟨t, ht, hp⟩ := exists_of_any h
  obtain ⟨hp, hs⟩ := Bool.and_eq_true_iff.mp hp
  refine ⟨t, ht, by decide, hp, eq_of_beq hs, ?_, ?_⟩
  · rw [← NameMap.contains_iff]
    decide +kernel
  · rw [← NameMap.contains_iff]
    decide +kernel

theorem symbols_allowed_searches :
    ∃ t, Tree.ofText "contains(NAME, tolower('x')) and logins/any(l: l/name in ('y', 'z'))" users "User" {} = .ok t ∧
      (searches.withOperator "ANY" none).operators.entries ≠ [] ∧
      (onTree t (some (searches.withOperator "ANY" none))).passed = true ∧
      t.bound.symbols false = ["and", "contains", "any", "in"] ∧
      ∀ name ∈ t.bound.symbols false, (searches.withOperator "ANY" none).operators.Names name := by
  have h : (Tree.ofText "contains(NAME, tolower('x')) and logins/any(l: l/name in ('y', 'z'))" users "User"
      {}).toOption.any (fun t => (onTree t (some (searches.withOperator "ANY" none))).passed &&
        t.bound.symbols false == ["and", "contains", "any", "in"]) = true := by
    decide +kernel
  obtain ⟨t, ht, hp⟩ := exists_of_any h
  obtain ⟨hp, hs⟩ := Bool.and_eq_true_iff.mp hp
  exact ⟨t, ht, by decide, hp, eq_of_beq hs, symbols_allowed ht (by decide) hp⟩

end Verdict

end FilterGuard
