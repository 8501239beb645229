import FilterGuard.Filter
import FilterGuard.Proofs.BindingRules
import FilterGuard.Proofs.Typing

/-!
# Items of lists to look in

The parser takes any expressions for the items of a list, and binding looks at their
types only. So the items of a bound list are constants exactly where literals were
written, and only a list of literals has no operator, function or property in it.
-/

namespace FilterGuard

def Expr.isLiteral : Expr → Bool
  | literal _ => true
  | _ => false

mutual

/-- The lists right of `in`, wherever they stand in an expression. A literal is a list of one. -/
def Expr.lists : Expr → List (List Expr)
  | literal _ | name _ => []
  | list items => listsEach items
  | member owner _ => owner.lists
  | quantifiedEmpty _ source => source.lists
  | quantified _ source _ body => source.lists ++ body.lists
  | call _ args => listsEach args
  | unary _ operand => operand.lists
  | binary _ left right => left.lists ++ right.lists
  | within item (list items) => item.lists ++ items :: listsEach items
  | within item (literal value) => item.lists ++ [[literal value]]
  | within item candidates => item.lists ++ candidates.lists

def Expr.listsEach : List Expr → List (List Expr)
  | [] => []
  | e :: es => e.lists ++ listsEach es

end

namespace Bound

/-- Whether an expression is a constant under its conversions. -/
def isConstant (b : Bound) : Bool :=
  match b.unconverted with
  | const _ => true
  | _ => false

mutual

/-- The lists right of `in`, wherever they stand in an expression. -/
def lists : Bound → List (List Bound)
  | const _ | var _ _ | access _ none _ => []
  | convert source _ => source.lists
  | unary _ operand => operand.lists
  | binary _ left right => left.lists ++ right.lists
  | call _ args => listsEach args
  | within item (list items) => item.lists ++ items :: listsEach items
  | within item candidates => item.lists ++ candidates.lists
  | quantified _ source _ body => source.lists ++ body.lists
  | access _ (some owner) _ => owner.lists
  | list items => listsEach items

def listsEach : List Bound → List (List Bound)
  | [] => []
  | b :: bs => b.lists ++ listsEach bs

end

mutual

/-- The operators, functions and properties in an expression. Those in lists right of
`in` are left out unless `listed`. -/
def uses (listed : Bool) : Bound → List String
  | const _ | var _ _ => []
  | convert source _ => source.uses listed
  | unary op operand => op.symbol :: operand.uses listed
  | binary op left right => op.symbol :: (left.uses listed ++ right.uses listed)
  | call function args => function :: usesEach listed args
  | within item (list items) => "in" :: (item.uses listed ++ if listed then usesEach listed items else [])
  | within item candidates => "in" :: (item.uses listed ++ candidates.uses listed)
  | quantified quantifier source _ body => quantifier.symbol :: (source.uses listed ++ body.uses listed)
  | access _ none name => [name]
  | access _ (some owner) name => name :: owner.uses listed
  | list items => usesEach listed items

def usesEach (listed : Bool) : List Bound → List String
  | [] => []
  | b :: bs => b.uses listed ++ usesEach listed bs

end

/-! ## Constants -/

theorem lists_unconverted : ∀ b : Bound, b.unconverted.lists = b.lists
  | convert source _ => by rw [unconverted, lists, lists_unconverted source]
  | const _ | unary .. | binary .. | call .. | within .. | quantified .. | access .. | list _ | var .. => rfl

theorem uses_unconverted (listed : Bool) : ∀ b : Bound, b.unconverted.uses listed = b.uses listed
  | convert source _ => by rw [unconverted, uses, uses_unconverted listed source]
  | const _ | unary .. | binary .. | call .. | within .. | quantified .. | access .. | list _ | var .. => rfl

theorem isConstant_iff {b : Bound} : b.isConstant = true ↔ ∃ v, b.unconverted = .const v := by
  unfold isConstant
  split <;> simp_all

theorem uses_of_isConstant {b : Bound} (h : b.isConstant = true) (listed : Bool) : b.uses listed = [] := by
  obtain ⟨v, hv⟩ := isConstant_iff.mp h
  rw [← uses_unconverted, hv, uses]

theorem usesEach_of_isConstant (listed : Bool) : ∀ {bs : List Bound}, (∀ b ∈ bs, b.isConstant = true) →
    usesEach listed bs = []
  | [], _ => rfl
  | b :: bs, h => by
    obtain ⟨hb, hbs⟩ := List.forall_mem_cons.mp h
    rw [usesEach, uses_of_isConstant hb, usesEach_of_isConstant listed hbs, List.append_nil]

/-- Whether all lists right of `in` have constants only. -/
def LiteralLists (lists : List (List Bound)) : Prop :=
  ∀ items ∈ lists, ∀ item ∈ items, item.isConstant = true

theorem literalLists_append {ls ms : List (List Bound)} :
    LiteralLists (ls ++ ms) ↔ LiteralLists ls ∧ LiteralLists ms :=
  List.forall_mem_append

mutual

/-- Lists of constants hide nothing. -/
theorem uses_of_literalLists : ∀ b : Bound, LiteralLists b.lists → b.uses true = b.uses false
  | const _, _ | var _ _, _ | access _ none _, _ => by simp only [uses]
  | convert source _, h => by
    rw [lists] at h
    rw [uses, uses, uses_of_literalLists source h]
  | unary op operand, h => by
    rw [lists] at h
    rw [uses, uses, uses_of_literalLists operand h]
  | binary op left right, h => by
    rw [lists, literalLists_append] at h
    rw [uses, uses, uses_of_literalLists left h.1, uses_of_literalLists right h.2]
  | call function args, h => by
    rw [lists] at h
    rw [uses, uses, usesEach_of_literalLists args h]
  | within item candidates, h => by
    cases candidates with
    | list items =>
      rw [lists, literalLists_append] at h
      obtain ⟨hi, hl⟩ := h
      rw [uses, uses, uses_of_literalLists item hi, usesEach_of_isConstant true (List.forall_mem_cons.mp hl).1]
      rfl
    | _ =>
      rw [lists.eq_def] at h
      obtain ⟨hi, hc⟩ := literalLists_append.mp h
      rw [uses.eq_def, uses.eq_def false]
      simp only
      rw [uses_of_literalLists item hi, uses_of_literalLists _ hc]
  | quantified quantifier source _ body, h => by
    rw [lists, literalLists_append] at h
    rw [uses, uses, uses_of_literalLists source h.1, uses_of_literalLists body h.2]
  | access _ (some owner) name, h => by
    rw [lists] at h
    rw [uses, uses, uses_of_literalLists owner h]
  | list items, h => by
    rw [lists] at h
    rw [uses, uses, usesEach_of_literalLists items h]

theorem usesEach_of_literalLists : ∀ bs : List Bound, LiteralLists (listsEach bs) → usesEach true bs = usesEach false bs
  | [], _ => rfl
  | b :: bs, h => by
    rw [listsEach, literalLists_append] at h
    rw [usesEach, usesEach, uses_of_literalLists b h.1, usesEach_of_literalLists bs h.2]

end

end Bound

/-! ## Lists as written -/

namespace Binding

/-- Whether a bound expression has the lists that were written, with constants for the
literals in them. -/
structure Mirrors (e : Expr) (b : Bound) : Prop where
  constant : b.isConstant = e.isLiteral
  lists : b.lists.map (List.map Bound.isConstant) = e.lists.map (List.map Expr.isLiteral)

variable {ctx : Context} {vars : Scope}

theorem Mirrors.coerced {e : Expr} {b b' : Bound} (h : Mirrors e b) (hc : Coerced b b') : Mirrors e b' := by
  cases hc with
  | same => exact h
  | convert target => exact ⟨h.constant, by rw [Bound.lists, h.lists]⟩
  | member hs type member =>
    have hb : b.isConstant = true := Bound.isConstant_iff.mpr ⟨_, hs⟩
    have hl : b.lists = [] := by rw [← b.lists_unconverted, hs, Bound.lists]
    exact ⟨hb.symm.trans h.constant, by rw [← h.lists, hl, Bound.lists]⟩

theorem mirrors_each {es : List Expr} {bs : List Bound} (h : List.Forall₂ Mirrors es bs) :
    bs.map Bound.isConstant = es.map Expr.isLiteral ∧
    (Bound.listsEach bs).map (List.map Bound.isConstant) = (Expr.listsEach es).map (List.map Expr.isLiteral) := by
  induction h with
  | nil => exact ⟨rfl, rfl⟩
  | cons hm _ ih =>
    rw [List.map_cons, List.map_cons, hm.constant, ih.1, Bound.listsEach, Expr.listsEach, List.map_append,
      List.map_append, hm.lists, ih.2]
    exact ⟨rfl, rfl⟩

theorem mirrors_zip {es : List Expr} {xs : List Typed} (hl : es.length = xs.length)
    (hz : ∀ p ∈ es.zip xs, Mirrors p.1 p.2.node) : List.Forall₂ Mirrors es (xs.map Typed.node) :=
  List.forall₂_map_right_iff.mpr (List.forall₂_iff_zip.mpr ⟨hl, fun hp => hz _ hp⟩)

/-- Items are constants if they were before they were taken for items. -/
theorem mirrors_items {subject : Option EdmType} {es : List Expr} {xs ys : List Typed}
    (h : List.Forall₂ Mirrors es (xs.map Typed.node))
    (hy : List.Forall₂ (fun x y => asItem ctx subject x = .ok y) xs ys) :
    List.Forall₂ Mirrors es (ys.map Typed.node) := by
  induction hy generalizing es with
  | nil => exact h
  | cons hxy _ ih =>
    obtain _ | ⟨hm, ht⟩ := h
    exact .cons (hm.coerced (coerced_asItem hxy)) (ih ht)

theorem lists_items {item candidates : Expr} {es : List Expr} (h : candidates.items? = some es) :
    (Expr.within item candidates).lists = item.lists ++ es :: Expr.listsEach es := by
  cases candidates with
  | list items =>
    cases h
    rw [Expr.lists]
  | literal value =>
    cases h
    rw [Expr.lists]
    rfl
  | _ => cases h

theorem lists_candidates {item candidates : Expr} (h : candidates.items? = none) :
    (Expr.within item candidates).lists = item.lists ++ candidates.lists := by
  cases candidates with
  | list | literal => cases h
  | _ => rw [Expr.lists.eq_def]

theorem mirrors_of_means {e : Expr} {x : Typed} (h : Means ctx vars e x) : Mirrors e x.node := by
  induction h with
  | literal h =>
    obtain ⟨v, rfl⟩ := literal_ok h
    exact ⟨rfl, by rw [Bound.lists, Expr.lists]; rfl⟩
  | list hl _ ih => exact ⟨rfl, by rw [list, Bound.lists, Expr.lists, (mirrors_each (mirrors_zip hl ih)).2]⟩
  | name h =>
    obtain ⟨_, _, hv⟩ | ⟨_, _, hv⟩ := node_resolve h <;> rw [hv]
    · exact ⟨rfl, by rw [Bound.lists, Expr.lists]; rfl⟩
    · exact ⟨rfl, by rw [Bound.lists, filtered, Bound.lists, Expr.lists]; rfl⟩
  | member _ h ih =>
    obtain ⟨_, _, hm⟩ := node_member h
    rw [hm]
    exact ⟨rfl, by rw [Bound.lists, Expr.lists, ih.lists]⟩
  | quantifiedEmpty _ _ _ ih =>
    exact ⟨rfl, by rw [truth, Bound.lists, Bound.lists, Expr.lists, List.append_nil, ih.lists]⟩
  | quantified _ _ _ _ _ _ ihs ihb =>
    exact ⟨rfl, by rw [truth, Bound.lists, Expr.lists, List.map_append, List.map_append, ihs.lists, ihb.lists]⟩
  | call _ hl _ _ ih => exact ⟨rfl, by rw [call, Bound.lists, Expr.lists, (mirrors_each (mirrors_zip hl ih)).2]⟩
  | unary _ h ih =>
    rw [node_combineUnary h]
    exact ⟨rfl, by rw [Bound.lists, Expr.lists, ih.lists]⟩
  | binary _ _ h ihl ihr =>
    obtain ⟨l, r, hj, hcl, hcr⟩ := joined_combine h
    rw [hj]
    refine ⟨rfl, ?_⟩
    rw [Bound.lists, Expr.lists, List.map_append, List.map_append, (ihl.coerced hcl).lists, (ihr.coerced hcr).lists]
  | among _ _ hc hl _ hy ihi ih =>
    obtain ⟨hsame, heach⟩ := mirrors_each (mirrors_items (mirrors_zip hl ih) hy)
    refine ⟨rfl, ?_⟩
    rw [truth, Bound.lists, lists_items hc, List.map_append, List.map_append, List.map_cons, List.map_cons, ihi.lists,
      hsame, heach]
  | @within vars item candidates x y _ _ hn hc _ ihi ihc =>
    have hb : (Bound.within x.node y.node).lists = x.node.lists ++ y.node.lists := by
      have hy := (node_of_means hc).2 hn
      cases hc : y.node with
      | list items => exact absurd hc (hy items)
      | _ => rw [Bound.lists.eq_def]
    exact ⟨rfl, by rw [truth, hb, lists_candidates hn, List.map_append, List.map_append, ihi.lists, ihc.lists]⟩

end Binding

theorem literalLists_iff {b : Bound} {e : Expr}
    (h : b.lists.map (List.map Bound.isConstant) = e.lists.map (List.map Expr.isLiteral)) :
    Bound.LiteralLists b.lists ↔ ∀ items ∈ e.lists, ∀ item ∈ items, item.isLiteral = true := by
  have hb : Bound.LiteralLists b.lists ↔ ∀ flags ∈ b.lists.map (List.map Bound.isConstant), ∀ flag ∈ flags, flag = true := by
    simp only [Bound.LiteralLists, List.forall_mem_map]
  rw [hb, h]
  simp only [List.forall_mem_map]

/-- The lists right of `in` are bound as they are written, and have constants where
literals are written. If literals are written everywhere, such lists hide nothing. -/
theorem lists_of_bindText {filter : String} {schema : Schema} {type : Element} {options : Options} {b : Bound}
    (h : bindText filter schema type options = .ok b) :
    ∃ e, Expr.parse filter options.maxDepth = .ok e ∧
      b.lists.map (List.map Bound.isConstant) = e.lists.map (List.map Expr.isLiteral) ∧
      (Bound.LiteralLists b.lists ↔ ∀ items ∈ e.lists, ∀ item ∈ items, item.isLiteral = true) ∧
      (Bound.LiteralLists b.lists → b.uses true = b.uses false) := by
  obtain ⟨e, he, hb⟩ := bind_ok h
  obtain ⟨x, hx, -, rfl⟩ := Binding.meaning_of_bind hb
  have hm := (Binding.mirrors_of_means (Binding.meaning_ok_iff.mp hx)).lists
  exact ⟨e, he, hm, literalLists_iff hm, x.node.uses_of_literalLists⟩

/-- The second item of the first list is a property, so not all lists are literal. -/
theorem lists_of_bindText_orders :
    ∃ b e, bindText "lines/any(l: l/price in (2.5, total)) and state in 'open'" orders order {} = .ok b ∧
      Expr.parse "lines/any(l: l/price in (2.5, total)) and state in 'open'" (Options.maxDepth {}) = .ok e ∧
      e.lists.map (List.map Expr.isLiteral) = [[true, false], [true]] ∧ ¬Bound.LiteralLists b.lists := by
  have h : (bindText "lines/any(l: l/price in (2.5, total)) and state in 'open'" orders order {}).toOption.any
      (fun b => b.lists.map (List.map Bound.isConstant) == [[true, false], [true]]) = true := by
    decide +kernel
  obtain ⟨b, hb, hf⟩ := exists_of_any h
  obtain ⟨e, he, hm, hi, -⟩ := lists_of_bindText hb
  have hf := hm.symm.trans (eq_of_beq hf)
  have hn : ¬∀ flags ∈ e.lists.map (List.map Expr.isLiteral), ∀ flag ∈ flags, flag = true := by
    rw [hf]
    decide
  refine ⟨b, e, hb, he, hf, fun hl => hn ?_⟩
  simpa only [List.forall_mem_map] using hi.mp hl

/-- An item may be any expression of a type that goes with the others, and hides what is in it. -/
theorem lists_not_literal :
    ∃ b, bindText "note in ('y', concat(note, 'z'))" orders order {} = .ok b ∧ ¬Bound.LiteralLists b.lists ∧
      b.uses true = ["in", "note", "concat", "note"] ∧ b.uses false = ["in", "note"] := by
  have h : (bindText "note in ('y', concat(note, 'z'))" orders order {}).toOption.any (fun b =>
      b.lists.any (fun items => items.any fun item => !item.isConstant) &&
        b.uses true == ["in", "note", "concat", "note"] && b.uses false == ["in", "note"]) = true := by
    decide +kernel
  obtain ⟨b, hb, h⟩ := exists_of_any h
  simp only [Bool.and_eq_true, beq_iff_eq, List.any_eq_true, Bool.not_eq_true'] at h
  obtain ⟨⟨⟨items, hi, item, hm, hc⟩, ht⟩, hf⟩ := h
  exact ⟨b, hb, fun hl => absurd (hl items hi item hm) (by simp [hc]), ht, hf⟩

end FilterGuard
