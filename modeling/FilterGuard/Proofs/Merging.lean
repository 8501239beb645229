import FilterGuard.Proofs.RuleOrder

/-!
# Rules merged from a rule text

A rule text is read in two passes. The first one reads the pieces between the bars,
and its first error is the error of the text, whatever else is wrong. The second one
puts the fragments together: an operator that comes again is an error, while the
counts of a property, and of an operator listed for it, are combined from left to
right over every place that names it.
-/

namespace FilterGuard
open Text

namespace Count

/-- What counts for one thing come to, from left to right. -/
def combined : List Count → Option Count
  | [] => none
  | c :: cs => some (cs.foldl combine c)

end Count

namespace Fragment

/-- What stands between the bars of a rule text and is not blank. -/
def pieces (text : List Char) : List (List Char) :=
  (fields '|' text).filter fun p => !allBlank p

def fault? (piece : List Char) : Option FragmentError :=
  match read piece with
  | .error e => some e
  | .ok _ => none

/-- The error of the first piece that cannot be read. -/
def firstFault (text : List Char) : Option FragmentError :=
  (pieces text).findSome? fault?

/-- The fragments of a rule text, as far as they can be read. -/
def readable (text : List Char) : List Fragment :=
  (pieces text).filterMap fun p => (read p).toOption

/-- The counts that come for a name, in any case. -/
def countsOf (name : String) (us : List (String × Count)) : List Count :=
  (us.filter fun u => sameName u.1 name).map Prod.snd

/-- The operators listed for a property in any of its fragments, also those listed again. -/
def listedFor (name : String) (fs : List Fragment) : List (String × Count) :=
  ((listedRules fs).filter fun u => sameName u.1 name).flatMap Prod.snd

theorem mapM_read : ∀ ps : List (List Char), ps.mapM read =
    match ps.findSome? fault? with
    | some e => .error e
    | none => .ok (ps.filterMap fun p => (read p).toOption)
  | [] => rfl
  | p :: ps => by
    rw [List.mapM_cons, List.findSome?_cons, mapM_read ps, fault?]
    cases hp : read p with
    | error e => rfl
    | ok f =>
      rw [List.filterMap_cons, hp]
      cases ps.findSome? fault? <;> rfl

theorem readAll_eq_firstFault (text : List Char) : readAll text =
    match firstFault text with
    | some e => .error e
    | none => .ok (readable text) :=
  mapM_read _

end Fragment

namespace Rules

open NameMap Fragment

/-! ## Counts under a name -/

theorem foldl_widen (c : Count) : ∀ cs : List Count,
    cs.foldl (fun old d => some (widen d old)) (some (some c)) = some (some (cs.foldl Count.combine c))
  | [] => rfl
  | d :: cs => foldl_widen (c.combine d) cs

/-- Under a name is the combined count of all that came for it. -/
theorem get?_fill_widen (us : List (String × Count)) (name : String) :
    (NameMap.empty.fill widen us).get? name = (Count.combined (countsOf name us)).map some := by
  rw [get?_fill, ← countsOf, get?_empty]
  cases countsOf name us with
  | nil => rfl
  | cons c cs => exact foldl_widen c cs

/-! ## Operators listed for a property -/

/-- All lists for a property are put into one map. -/
theorem get?_fill_listing (fs : List Fragment) (name : String) :
    (NameMap.empty.fill listing (listedRules fs)).get? name =
      if listedFor name fs = [] then none else some (listing (listedFor name fs) none) := by
  have hne : ∀ ops ∈ ((listedRules fs).filter fun u => sameName u.1 name).map Prod.snd, ops ≠ [] := by
    intro ops hops
    obtain ⟨u, hu, rfl⟩ := List.mem_map.mp hops
    obtain ⟨f, hf, rfl⟩ := List.mem_map.mp (List.mem_filter.mp hu).1
    simpa using (of_decide_eq_true (List.mem_filter.mp hf).2).2
  rw [get?_fill, listedFor, List.flatMap_def, get?_empty]
  cases hl : ((listedRules fs).filter fun u => sameName u.1 name).map Prod.snd with
  | nil => rfl
  | cons ops rest =>
    have ho : (ops :: rest).flatten ≠ [] := fun h =>
      hne ops (hl ▸ List.mem_cons_self) (List.flatten_eq_nil_iff.mp h ops List.mem_cons_self)
    rw [if_neg ho, List.foldl_cons, foldl_listing, List.flatten_cons]

/-! ## Rules -/

/-- Whether rules are what fragments come to. Operators stand as they came. A property
has its first spelling and its combined count. A property that operators are listed for
has these, in their first spellings and with their combined counts; no other one has an
entry. -/
structure Assembled (fs : List Fragment) (r : Rules) : Prop where
  operators : r.operators.entries = (operatorRules fs).map fun u => (u.1, some u.2)
  properties : r.properties.keys = firstSpellings ((propertyRules fs).map Prod.fst)
  property : ∀ name, r.properties.get? name = (Count.combined (countsOf name (propertyRules fs))).map some
  listed : r.propertyOperators.keys = firstSpellings ((listedRules fs).map Prod.fst)
  unlisted : ∀ name, listedFor name fs = [] → r.propertyOperators.get? name = none
  pairs : ∀ name, listedFor name fs ≠ [] → ∃ allowed, r.propertyOperators.get? name = some (some allowed) ∧
    allowed.keys = firstSpellings ((listedFor name fs).map Prod.fst) ∧
    ∀ op, allowed.get? op = (Count.combined (countsOf op (listedFor name fs))).map some

theorem assembled_filled {fs : List Fragment} (h : empty.Fresh fs) : Assembled fs (empty.filled fs) where
  operators := by
    have hn : ((operatorRules fs).map fun u => fold u.1).Nodup := by
      simpa [Fresh, empty, keys, NameMap.empty, Function.comp_def] using h
    exact entries_fill_empty _ hn
  properties := keys_fill_empty _ _
  property := get?_fill_widen _
  listed := keys_fill_empty _ _
  unlisted name hl := (get?_fill_listing fs name).trans (if_pos hl)
  pairs name hl :=
    ⟨NameMap.empty.fill widen (listedFor name fs), (get?_fill_listing fs name).trans (if_neg hl),
      keys_fill_empty _ _, get?_fill_widen _⟩

/-- What a rule text loads as: the error of its first piece that cannot be read, else the
first operator that comes again, else the rules that its fragments come to. -/
theorem load_text {text : String} (h : ¬StartsDocument text) :
    match firstFault (trim text.toList) with
    | some e => load text = .error (.ruleFormat (String.ofList (trim text.toList)) (.fragment e))
    | none =>
      match firstRecurring [] ((operatorRules (readable (trim text.toList))).map Prod.fst) with
      | some name => load text = .error (.duplicateRule name)
      | none => ∃ r, load text = .ok r ∧ Assembled (readable (trim text.toList)) r := by
  rw [load_eq_ofText h, ofText, readAll_eq_firstFault]
  cases hf : firstFault (trim text.toList) with
  | some e => rfl
  | none =>
    have hfill := foldlM_add (readable (trim text.toList)) empty
    have hkeys : empty.operators.keys = [] := rfl
    rw [hkeys] at hfill
    cases hr : firstRecurring [] ((operatorRules (readable (trim text.toList))).map Prod.fst) with
    | some name => rwa [hr] at hfill
    | none =>
      rw [hr] at hfill
      exact ⟨_, hfill, assembled_filled (fresh_iff.mpr (hkeys ▸ hr))⟩

/-- One property in two spellings, an operator listed twice in one pair of brackets, an
empty list; an error that stands behind a repeated operator; and two repeated operators. -/
theorem load_text_names :
    (∃ r allowed, load "eq:1 | x[eq,EQ,ne]:1,2|p:y|| X [NE]:2,3|o:add|p:z[]" = .ok r ∧
      r.operators.entries = [("eq", some ⟨1, 1⟩), ("add", some ⟨0, 0⟩)] ∧
      r.properties.keys = ["x", "y", "z"] ∧ r.properties.get? "X" = some (some ⟨1, 5⟩) ∧
      r.propertyOperators.keys = ["x"] ∧ r.propertyOperators.get? "z" = none ∧
      r.propertyOperators.get? "X" = some (some allowed) ∧ allowed.keys = ["eq", "ne"] ∧
      allowed.get? "Eq" = some (some ⟨1, 4⟩) ∧ allowed.get? "ne" = some (some ⟨1, 5⟩)) ∧
    load "eq:1|EQ|p:x:1,2,3|y[" =
      .error (.ruleFormat "eq:1|EQ|p:x:1,2,3|y[" (.fragment (.countShape "p:x:1,2,3" "1,2,3"))) ∧
    load "eq:1|x|EQ|ne|Ne" = .error (.duplicateRule "EQ") := by
  have hmerged : ∃ r, load "eq:1 | x[eq,EQ,ne]:1,2|p:y|| X [NE]:2,3|o:add|p:z[]" = .ok r ∧
      Assembled (readable "eq:1 | x[eq,EQ,ne]:1,2|p:y|| X [NE]:2,3|o:add|p:z[]".toList) r :=
    @load_text "eq:1 | x[eq,EQ,ne]:1,2|p:y|| X [NE]:2,3|o:add|p:z[]" (by decide)
  obtain ⟨r, hr, ha⟩ := hmerged
  obtain ⟨allowed, hx, hk, ho⟩ := ha.pairs "X" (by decide)
  refine ⟨⟨r, allowed, hr, ha.operators, ha.properties, ha.property "X", ha.listed, ha.unlisted "z" (by decide), hx, hk,
    ho "Eq", ho "ne"⟩, ?_, ?_⟩
  · exact @load_text "eq:1|EQ|p:x:1,2,3|y[" (by decide)
  · exact @load_text "eq:1|x|EQ|ne|Ne" (by decide)

end Rules

end FilterGuard
