import FilterGuard.Proofs.Limits
import FilterGuard.Proofs.Rebinding
import FilterGuard.Proofs.Room

/-!
# Filters that can be read back

The text of a bound filter is bound to the same filter again where it says what the
filter does, and then no other such filter has that text.
-/

namespace FilterGuard

namespace Binding

/-- No rule looks at the limit. -/
theorem Means.withLimit {ctx : Context} {vars : Scope} {e : Expr} {x : Typed} (h : Means ctx vars e x) (limit : Nat) :
    Means (ctx.withLimit limit) vars e x := by
  induction h with
  | literal h => exact .literal h
  | list hl _ ih => exact .list hl ih
  | name h => exact .name h
  | member _ h ih => exact .member ih h
  | quantifiedEmpty quantifier _ hi ih => exact .quantifiedEmpty quantifier ih hi
  | quantified quantifier v _ hi _ hy ihs ihb => exact .quantified quantifier v ihs hi ihb hy
  | call hs hl _ ha ih => exact .call hs hl ih ha
  | unary _ h ih => exact .unary ih h
  | binary _ _ h ihl ihr => exact .binary ihl ihr h
  | among _ hx hc hl _ hy ihi ih => exact .among ihi hx hc hl ih hy
  | within _ hx hn _ hy ihi ihc => exact .within ihi hx hn ihc hy

end Binding

open Binding in
theorem exists_limit {elements : List Element} {schema : Schema} (hs : Schema.ofElements elements = .ok schema)
    (hv : Visible schema) {filter : String} {type : Element} {options : Options} {b : Bound}
    (h : bindText filter schema type options = .ok b) (hl : b.legible [] = true) :
    ∃ limit, ∀ depth, limit ≤ depth → bindText b.render schema type { options with maxDepth := depth } = .ok b := by
  obtain ⟨e, he, h⟩ := bind_ok h
  obtain ⟨x, hx, ht, rfl⟩ := meaning_of_bind h
  have hknown : ∀ e ∈ schema.elements, e.kind = .enum → schema.Knows (.enum e.fullName) := by
    intro e hm hkind f hf
    cases (hv e hm hkind).symm.trans hf
    rfl
  have hsettled : Settled ⟨schema, .entity type.fullName, options⟩ :=
    ⟨hknown, fun _ he _ hm => Schema.knows_property hs hknown he hm, trivial⟩
  obtain ⟨ho, hm⟩ := reread_of_means hsettled hv (meaning_ok_iff.mp hx) (Expr.orderly_of_parse he) nofun hl
  obtain ⟨limit, hparse⟩ := Bound.parse_render ho hl
  refine ⟨max limit (x.node.written.nesting + 1), fun depth hdepth => ?_⟩
  have hmeaning := meaning_ok_iff.mpr (hm.withLimit depth)
  refine (ok_bind (hparse depth (by omega)) _).trans (bind_eq_ok_iff.mpr ⟨by show _ < depth; omega, ?_⟩)
  exact (ok_bind hmeaning _).trans (ok_bind ht _)

/-- The text of a legible filter is bound to the same filter, if there is room for it, and
two legible filters with one text are the same. -/
theorem bindText_render {elements : List Element} {schema : Schema} (hs : Schema.ofElements elements = .ok schema)
    (hv : ∀ e ∈ schema.elements, e.kind = .enum → schema.enumType e.fullName = some e) {filter : String}
    {type : Element} {options : Options} {b : Bound} (h : bindText filter schema type options = .ok b)
    (hl : b.legible [] = true) :
    (∃ limit, ∀ depth, limit ≤ depth → bindText b.render schema type { options with maxDepth := depth } = .ok b) ∧
    ∀ filter' b', bindText filter' schema type options = .ok b' → b'.legible [] = true → b'.render = b.render →
      b' = b := by
  obtain ⟨limit, hb⟩ := exists_limit hs hv h hl
  refine ⟨⟨limit, hb⟩, fun filter' b' h' hl' ht => ?_⟩
  obtain ⟨limit', hb'⟩ := exists_limit hs hv h' hl'
  have hb := hb (max limit limit') (Nat.le_max_left _ _)
  have hb' := hb' (max limit limit') (Nat.le_max_right _ _)
  rw [ht] at hb'
  exact Except.ok.inj (hb'.symm.trans hb)

/-- Conversions, a member of an enumeration, quantifiers and operators of all levels. -/
def readableFilter : String :=
  "not (state ne 'open') and lines/ANY(l: l/price add 1 gt -Total or l/tags/all(t: length(t) in (2, id)) and 'a' in l/tags)"

theorem bindText_render_orders :
    ∃ b, bindText readableFilter orders order {} = .ok b ∧ b.legible [] = true ∧
      b.render = "not (state ne N.State'Open') and lines/any(l: ((l/price add 1) gt -total) or "
        ++ "(l/tags/all(t: length(t) in (2, id)) and 'a' in l/tags))" ∧
      (∃ limit, ∀ depth, limit ≤ depth → bindText b.render orders order { maxDepth := depth } = .ok b) ∧
      ∀ filter' b', bindText filter' orders order {} = .ok b' → b'.legible [] = true → b'.render = b.render →
        b' = b := by
  have h : (bindText readableFilter orders order {}).toOption.any (fun b => b.legible [] &&
      b.render == "not (state ne N.State'Open') and lines/any(l: ((l/price add 1) gt -total) or "
        ++ "(l/tags/all(t: length(t) in (2, id)) and 'a' in l/tags))") = true := by
    decide +kernel
  obtain ⟨b, hb, h⟩ := exists_of_any h
  obtain ⟨hl, hr⟩ := Bool.and_eq_true_iff.mp h
  have hs : Schema.ofElements orders.elements = .ok orders := rfl
  exact ⟨b, hb, hl, eq_of_beq hr, bindText_render hs (by decide) hb hl⟩

/-- The operand of `not` has no parentheses if it is a search, so a search for a negation
has the same text. -/
theorem render_not_injective :
    ∃ b b', bindText "not (null in (true, false))" orders order {} = .ok b ∧
      bindText "not null in (true, false)" orders order {} = .ok b' ∧ b ≠ b' ∧ b.render = b'.render := by
  have h : (bindText "not (null in (true, false))" orders order {}).toOption.any (fun b =>
      b.level == 0 && b.render == "not null in (true, false)") = true := by
    decide +kernel
  have h' : (bindText "not null in (true, false)" orders order {}).toOption.any (fun b =>
      b.level == 3 && b.render == "not null in (true, false)") = true := by
    decide +kernel
  obtain ⟨b, hb, h⟩ := exists_of_any h
  obtain ⟨b', hb', h'⟩ := exists_of_any h'
  obtain ⟨hlevel, hr⟩ := Bool.and_eq_true_iff.mp h
  obtain ⟨hlevel', hr'⟩ := Bool.and_eq_true_iff.mp h'
  refine ⟨b, b', hb, hb', ?_, (eq_of_beq hr).trans (eq_of_beq hr').symm⟩
  rintro rfl
  cases (eq_of_beq hlevel).symm.trans (eq_of_beq hlevel')

end FilterGuard
