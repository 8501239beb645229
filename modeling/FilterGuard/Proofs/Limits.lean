import FilterGuard.Filter
import FilterGuard.Proofs.Meaning
import FilterGuard.Proofs.Outline

/-!
# Higher limits

A limit on nesting shows in a result only as the error that it has been exceeded.
Readers, binders and the growth of trees give the same under a higher limit, unless
that error is what they give under the lower one.
-/

namespace FilterGuard

/-- The error that an expression is nested too deep. -/
def ExprError.IsDepth : ExprError → Prop
  | tooDeep _ => True
  | _ => False

/-- The error that a filter or its tree is nested too deep. -/
def FilterError.IsDepth : FilterError → Prop
  | tooDeep _ => True
  | expression _ cause => cause.IsDepth
  | _ => False

/-- Whether `y` is what `x` is, unless that is one of the errors `P`. -/
def SettledUnless {ε α : Type} (P : ε → Prop) (x y : Except ε α) : Prop :=
  (∃ e, P e ∧ x = .error e) ∨ y = x

namespace SettledUnless

variable {ε α β : Type} {P : ε → Prop} {x y : Except ε α}

theorem refl (P : ε → Prop) (x : Except ε α) : SettledUnless P x x :=
  .inr rfl

theorem bind {f g : α → Except ε β} (hx : SettledUnless P x y) (hf : ∀ a, SettledUnless P (f a) (g a)) :
    SettledUnless P (x >>= f) (y >>= g) := by
  obtain ⟨e, he, rfl⟩ | rfl := hx
  · exact .inl ⟨e, he, rfl⟩
  · cases y with
    | error => exact .inr rfl
    | ok a => exact hf a

theorem mapError {ε' : Type} {Q : ε' → Prop} {f : ε → ε'} (hx : SettledUnless P x y)
    (hf : ∀ e, P e → Q (f e)) : SettledUnless Q (x.mapError f) (y.mapError f) := by
  obtain ⟨e, he, rfl⟩ | rfl := hx
  · exact .inl ⟨f e, hf e he, rfl⟩
  · exact .refl _ _

end SettledUnless

/-! ## Readers -/

namespace Parsing

variable {P : ExprError → Prop} {p q : Parse Expr} (h : ∀ ts, SettledUnless P (p ts) (q ts))
include h

theorem settled_chain (join? : Token → Option Join) : ∀ (fuel : Nat) (left : Expr) (ts : List Token),
    SettledUnless P (chain p join? fuel left ts) (chain q join? fuel left ts)
  | 0, _, _ => .refl _ _
  | _ + 1, _, [] => .refl _ _
  | fuel + 1, left, t :: rest => by
    unfold chain
    cases join? t with
    | none => exact .refl _ _
    | some join => exact (h rest).bind fun x => settled_chain join? fuel _ _

theorem settled_leftAssoc (join? : Token → Option Join) (ts : List Token) :
    SettledUnless P (leftAssoc p join? ts) (leftAssoc q join? ts) :=
  (h ts).bind fun _ => settled_chain h join? _ _ _

theorem settled_commaSeparated : ∀ (fuel : Nat) (ts : List Token),
    SettledUnless P (commaSeparated p fuel ts) (commaSeparated q fuel ts)
  | 0, _ => .refl _ _
  | fuel + 1, ts => by
    refine (h ts).bind fun x => ?_
    obtain ⟨first, rest⟩ := x
    dsimp only
    split
    · exact (settled_commaSeparated fuel _).bind fun _ => .refl _ _
    · exact .refl _ _

theorem settled_parenthesized (ts : List Token) : SettledUnless P (parenthesized p ts) (parenthesized q ts) :=
  (settled_commaSeparated h _ ts).bind fun _ => .refl _ _

theorem settled_arguments (ts : List Token) : SettledUnless P (arguments p ts) (arguments q ts) := by
  unfold arguments
  split
  · exact .refl _ _
  · exact (settled_commaSeparated h _ ts).bind fun _ => .refl _ _

theorem settled_quantifierBody (quantifier : Quantifier) (source : Expr) (ts : List Token) :
    SettledUnless P (quantifierBody p quantifier source ts) (quantifierBody q quantifier source ts) := by
  unfold quantifierBody
  split
  · exact .refl _ _
  · exact .refl _ _
  · exact (SettledUnless.refl _ _).bind fun rest => (h rest).bind fun _ => .refl _ _
  · exact .refl _ _

theorem settled_path : ∀ (fuel : Nat) (owner : Expr) (ts : List Token),
    SettledUnless P (path p fuel owner ts) (path q fuel owner ts)
  | 0, _, _ => .refl _ _
  | fuel + 1, owner, ts => by
    unfold path
    split
    · next heq =>
      cases heq
      split
      · exact .refl _ _
      · split
        · exact (settled_quantifierBody h _ _ _).bind fun x => settled_path fuel x.1 x.2
        · exact settled_path fuel _ _
      · exact .refl _ _
    · exact .refl _ _

theorem settled_named (name : String) (ts : List Token) : SettledUnless P (named p name ts) (named q name ts) := by
  unfold named
  split
  · exact .refl _ _
  · split
    · exact (settled_arguments h _).bind fun _ => .refl _ _
    · exact settled_path h _ _ _

theorem settled_operandOf {p' q' : Parse Expr} (h' : ∀ ts, SettledUnless P (p' ts) (q' ts)) (ts : List Token) :
    SettledUnless P (operandOf p p' ts) (operandOf q q' ts) := by
  have hneg : ∀ op rest, SettledUnless P (negation p' op rest) (negation q' op rest) :=
    fun op rest => (h' rest).bind fun _ => .refl _ _
  unfold operandOf
  split
  · exact .refl _ _
  · split
    · split
      · exact hneg _ _
      · exact settled_named h _ _
    · exact hneg _ _
    · exact settled_parenthesized h _
    · exact .refl _ _
    · exact .refl _ _

theorem settled_stratified (ts : List Token) : SettledUnless P (stratified p ts) (stratified q ts) := by
  have h₁ := settled_leftAssoc h (binaryJoin BinaryOp.multiplicative?)
  have h₂ := settled_leftAssoc h₁ (binaryJoin BinaryOp.additive?)
  have h₃ := settled_leftAssoc h₂ comparisonJoin
  have h₄ := settled_leftAssoc h₃ (binaryJoin (BinaryOp.ofWord? [.and]))
  exact settled_leftAssoc h₄ (binaryJoin (BinaryOp.ofWord? [.or])) ts

omit h

variable {low high : Nat}

theorem settled_exhausted (p : Parse Expr) (ts : List Token) :
    SettledUnless ExprError.IsDepth (exhausted low ts) (p ts) :=
  .inl ⟨.tooDeep low, trivial, rfl⟩

theorem settled_operand : ∀ {room room' : Nat}, room ≤ room' → ∀ ts,
    SettledUnless ExprError.IsDepth (operand low room ts) (operand high room' ts)
  | 0, 0, _, ts | 0, _ + 1, _, ts => settled_operandOf (settled_exhausted _) (settled_exhausted _) ts
  | _ + 1, _ + 1, hr, ts =>
    have h := settled_operand (Nat.le_of_succ_le_succ hr)
    settled_operandOf (settled_stratified h) h ts

theorem settled_expression : ∀ {room room' : Nat}, room ≤ room' → ∀ ts,
    SettledUnless ExprError.IsDepth (expression low room ts) (expression high room' ts)
  | 0, _, _, ts => settled_exhausted _ ts
  | _ + 1, _ + 1, hr, ts => settled_stratified (settled_operand (Nat.le_of_succ_le_succ hr)) ts

theorem settled_ofTokens (hl : low ≤ high) (ts : List Token) :
    SettledUnless ExprError.IsDepth (Expr.ofTokens low ts) (Expr.ofTokens high ts) := by
  unfold Expr.ofTokens
  split
  · exact .refl _ _
  · exact (settled_expression hl _).bind fun _ => .refl _ _

theorem settled_parse (hl : low ≤ high) (text : String) :
    SettledUnless ExprError.IsDepth (Expr.parse text low) (Expr.parse text high) :=
  (SettledUnless.refl _ (Token.read text)).bind fun ts => settled_ofTokens hl ts

end Parsing

/-! ## Binders -/

namespace Binding

/-- Whether `m'` does what `m` does in every state in which that is not nested too deep. -/
def Settles {α : Type} (m m' : Binder α) : Prop :=
  ∀ s, (∃ e, e.IsDepth ∧ (m.run.run s).1 = .error e) ∨ m'.run.run s = m.run.run s

namespace Settles

variable {α β : Type} {m m' : Binder α}

theorem refl (m : Binder α) : Settles m m :=
  fun _ => .inr rfl

theorem bind {f g : α → Binder β} (hm : Settles m m') (hf : ∀ a, Settles (f a) (g a)) :
    Settles (m >>= f) (m' >>= g) := by
  intro s
  rw [run_bind, run_bind]
  obtain ⟨e, he, h⟩ | h := hm s
  · refine .inl ⟨e, he, ?_⟩
    generalize m.run.run s = r at h
    obtain ⟨r, s'⟩ := r
    cases h
    rfl
  · rw [h]
    cases m.run.run s with
    | mk r s' =>
      cases r with
      | error => exact .inr rfl
      | ok a => exact hf a s'

theorem withVariable (v : String × EdmType) (hm : Settles m m') :
    Settles (withVariable v m) (withVariable v m') := by
  intro s
  rw [run_withVariable, run_withVariable]
  exact (hm _).imp id fun h => by rw [h]

theorem nested {ctx ctx' : Context} (hl : ctx.options.maxDepth ≤ ctx'.options.maxDepth)
    (hm : Settles m m') :
    Settles (nested ctx m) (nested ctx' m') := by
  intro s
  rw [run_nested, run_nested]
  by_cases hs : ctx.options.maxDepth ≤ s.depth
  · rw [if_pos hs]
    exact .inl ⟨.tooDeep _, trivial, rfl⟩
  · rw [if_neg hs]
    by_cases hs' : ctx'.options.maxDepth ≤ s.depth
    · omega
    · rw [if_neg hs']
      exact (hm _).imp id fun h => by rw [h]

end Settles

/-- The context with another limit. -/
def Context.withLimit (ctx : Context) (limit : Nat) : Context :=
  { ctx with options := { ctx.options with maxDepth := limit } }

section
variable {ctx : Context} {bind bind' : Expr → Binder Typed} (h : ∀ x, Settles (bind x) (bind' x))
include h

theorem settles_bindEach (finish : Nat → Typed → Except ExprError Typed) : ∀ (index : Nat) (es : List Expr),
    Settles (bindEach bind finish index es) (bindEach bind' finish index es)
  | _, [] => .refl _
  | index, x :: es => (h x).bind fun _ => (Settles.refl _).bind fun _ =>
      (settles_bindEach finish (index + 1) es).bind fun _ => .refl _

theorem settles_bindSteps (limit : Nat) : ∀ (steps : List (BinaryOp × Expr)) (left : Typed),
    Settles (bindSteps ctx bind left steps) (bindSteps (ctx.withLimit limit) bind' left steps)
  | [], _ => .refl _
  | step :: steps, left => by
    unfold bindSteps
    rw [List.foldlM_cons, List.foldlM_cons]
    exact ((h step.2).bind fun _ => .refl _).bind fun _ => settles_bindSteps limit steps _

theorem settles_bindExpr (limit : Nat) (x : Expr) :
    Settles (bindExpr ctx bind x) (bindExpr (ctx.withLimit limit) bind' x) := by
  cases x with
  | literal => exact .refl _
  | list items => exact (settles_bindEach h _ 0 items).bind fun _ => .refl _
  | name => exact .refl _
  | member owner => exact (h owner).bind fun _ => .refl _
  | quantifiedEmpty quantifier source => exact (h source).bind fun _ => .refl _
  | quantified quantifier source v body =>
    exact (h source).bind fun _ => (Settles.refl _).bind fun _ =>
      (Settles.withVariable _ (h body)).bind fun _ => .refl _
  | call function args => exact (Settles.refl _).bind fun _ => (settles_bindEach h _ 0 args).bind fun _ => .refl _
  | unary op operand => exact (h operand).bind fun _ => .refl _
  | binary op left right =>
    unfold bindExpr
    exact (h _).bind fun _ => settles_bindSteps h limit _ _
  | within item candidates =>
    refine (h item).bind fun _ => (Settles.refl _).bind fun _ => ?_
    cases candidates with
    | list items => exact (settles_bindEach h _ 0 items).bind fun _ => .refl _
    | literal value => exact (settles_bindEach h _ 0 _).bind fun _ => .refl _
    | _ => exact (h _).bind fun _ => .refl _

end

theorem settles_bindIn {ctx : Context} {limit : Nat} (hl : ctx.options.maxDepth ≤ limit) :
    ∀ {room room' : Nat}, room ≤ room' → ∀ x, Settles (bindIn ctx room x) (bindIn (ctx.withLimit limit) room' x)
  | 0, _, _, _ => fun _ => .inl ⟨.tooDeep _, trivial, rfl⟩
  | _ + 1, _ + 1, hr, x =>
    Settles.nested hl (settles_bindExpr (settles_bindIn hl (Nat.le_of_succ_le_succ hr)) limit x)

theorem settled_bind {schema : Schema} {type : Element} {options : Options} {limit : Nat}
    (hl : options.maxDepth ≤ limit) (x : Expr) : SettledUnless ExprError.IsDepth (bind schema type options x)
      (bind schema type { options with maxDepth := limit } x) := by
  let ctx : Context := ⟨schema, .entity type.fullName, options⟩
  have h : Settles (bindFilter ctx x) (bindFilter (ctx.withLimit limit) x) :=
    (settles_bindIn hl hl x).bind fun _ => .refl _
  exact (h ⟨#[], 0⟩).imp id fun h => congrArg Prod.fst h

end Binding

/-! ## Filters -/

theorem settled_bindText {options : Options} {limit : Nat} (hl : options.maxDepth ≤ limit) (text : String)
    (schema : Schema) (type : Element) : SettledUnless ExprError.IsDepth (bindText text schema type options)
      (bindText text schema type { options with maxDepth := limit }) :=
  (Parsing.settled_parse hl text).bind fun x => Binding.settled_bind hl x

namespace Tree

theorem settled_ofBound {options : Options} {limit : Nat} (hl : options.maxDepth ≤ limit) (expression : String)
    (b : Bound) (schema : Schema) : SettledUnless FilterError.IsDepth (ofBound expression b schema options)
      (ofBound expression b schema { options with maxDepth := limit }) := by
  unfold ofBound
  rw [grow_root, grow_root]
  by_cases hn : b.nest < options.maxDepth
  · rw [if_pos hn, if_pos (Nat.lt_of_lt_of_le hn hl)]
    exact .refl _ _
  · rw [if_neg hn]
    exact .inl ⟨.tooDeep _, trivial, rfl⟩

/-- A filter that is not nested too deep for a limit has the same tree, or the same error,
under every higher one. -/
theorem ofText_withLimit (filter : String) (schema : Schema) (type : String) (options : Options) {limit : Nat}
    (hl : options.maxDepth ≤ limit) (hd : ∀ e, ofText filter schema type options = .error e → ¬ e.IsDepth) :
    ofText filter schema type { options with maxDepth := limit } = ofText filter schema type options := by
  have h : SettledUnless FilterError.IsDepth (ofText filter schema type options)
      (ofText filter schema type { options with maxDepth := limit }) := by
    refine (SettledUnless.refl _ _).bind fun e => ?_
    cases Text.allBlank filter.toList with
    | true => exact .refl _ _
    | false =>
      have hb := settled_bindText hl filter schema e
      exact SettledUnless.bind (hb.mapError fun _ he => he) fun b => settled_ofBound hl filter b schema
  obtain ⟨e, he, h⟩ | h := h
  · exact absurd he (hd e h)
  · exact h

/-- The first limit is the least one that the filter fits in. -/
theorem ofText_withLimit_users :
    ∃ t, ofText "not (email eq 'x' and logins/any())" users "User" { maxDepth := 4 } = .ok t ∧
      (∀ e, ofText "not (email eq 'x' and logins/any())" users "User" { maxDepth := 4 } = .error e →
        ¬ e.IsDepth) ∧
      ofText "not (email eq 'x' and logins/any())" users "User" { maxDepth := 256 } = .ok t := by
  have h : (ofText "not (email eq 'x' and logins/any())" users "User" { maxDepth := 4 }).toOption.any
      (fun t => t.nodes.size == 7) = true := by
    decide +kernel
  obtain ⟨t, ht, -⟩ := exists_of_any h
  have hd : ∀ e, ofText "not (email eq 'x' and logins/any())" users "User" { maxDepth := 4 } = .error e →
      ¬ e.IsDepth := by
    intro e he
    rw [ht] at he
    cases he
  exact ⟨t, ht, hd, (ofText_withLimit _ users "User" { maxDepth := 4 } (by decide) hd).trans ht⟩

end Tree

end FilterGuard
