import FilterGuard.Filter
import FilterGuard.Proofs.Coercion
import FilterGuard.Proofs.Meaning
import FilterGuard.Proofs.Outline

/-!
# Room for a tree

A binder takes one of the places that a limit leaves for each expression that it
binds, and a tree takes one for each of its nodes above a node. What has been bound
has a tree under the same limit, but for calls without arguments: the binder goes
no deeper for them, while the tree has a node for the arguments all the same.
-/

namespace FilterGuard

/-- Whether one of the nodes of an expression is a call without arguments. -/
inductive Bound.HasBareCall : Bound → Prop
  | call (function : String) : HasBareCall (.call function [])
  | convert {source} (target : Primitive) (h : HasBareCall source) : HasBareCall (.convert source target)
  | unary (op : UnaryOp) {operand} (h : HasBareCall operand) : HasBareCall (.unary op operand)
  | left (op : BinaryOp) {left} (right : Bound) (h : HasBareCall left) : HasBareCall (.binary op left right)
  | right (op : BinaryOp) (left : Bound) {right} (h : HasBareCall right) : HasBareCall (.binary op left right)
  | item {item} (candidates : Bound) (h : HasBareCall item) : HasBareCall (.within item candidates)
  | candidates (item : Bound) {candidates} (h : HasBareCall candidates) : HasBareCall (.within item candidates)
  | body (quantifier : Quantifier) (source : Bound) (var : Option String) {body} (h : HasBareCall body) :
      HasBareCall (.quantified quantifier source var body)

/-- Whether an expression nests less deep than `room`, or no deeper if it has a call
without arguments. -/
def Bound.Fits (room : Nat) (b : Bound) : Prop :=
  b.nest ≤ room ∧ (b.nest = room → b.HasBareCall)

namespace Bound

variable {room : Nat} {b c : Bound}

theorem HasBareCall.nest_pos (h : b.HasBareCall) : 0 < b.nest := by
  induction h with
  | convert _ _ ih => exact ih
  | left | right =>
    rw [nest]
    omega
  | call | unary | item | candidates | body => exact Nat.succ_pos _

theorem Fits.pos (h : b.Fits room) : 0 < room := by
  refine Nat.pos_of_ne_zero fun hr => ?_
  subst hr
  have hn := Nat.le_zero.mp h.1
  exact absurd (h.2 hn).nest_pos (by omega)

theorem fits_of_lt (h : b.nest < room) : b.Fits room :=
  ⟨Nat.le_of_lt h, fun hn => absurd h (by omega)⟩

theorem Fits.succ (h : b.Fits room) : b.Fits (room + 1) :=
  fits_of_lt (Nat.lt_succ_of_le h.1)

theorem Fits.unary (op : UnaryOp) (h : b.Fits room) : (Bound.unary op b).Fits (room + 1) :=
  ⟨Nat.succ_le_succ h.1, fun hn => .unary op (h.2 (Nat.succ.inj hn))⟩

theorem Fits.body (quantifier : Quantifier) (source : Bound) (var : Option String) (h : b.Fits room) :
    (quantified quantifier source var b).Fits (room + 1) :=
  ⟨Nat.succ_le_succ h.1, fun hn => .body quantifier source var (h.2 (Nat.succ.inj hn))⟩

theorem Fits.within (hb : b.Fits room) (hc : c.Fits room) : (Bound.within b c).Fits (room + 1) := by
  refine ⟨Nat.succ_le_succ (Nat.max_le.mpr ⟨hb.1, hc.1⟩), fun hn => ?_⟩
  have hn := Nat.succ.inj hn
  rcases Nat.le_total c.nest b.nest with h | h
  · rw [Nat.max_eq_left h] at hn
    exact .item c (hb.2 hn)
  · rw [Nat.max_eq_right h] at hn
    exact .candidates b (hc.2 hn)

theorem fits_call (function : String) {args : List Bound} (h : args ≠ [] → 0 < room) :
    (call function args).Fits (room + 1) := by
  cases args with
  | nil => exact ⟨Nat.succ_le_succ (Nat.zero_le _), fun _ => .call function⟩
  | cons => exact fits_of_lt (Nat.succ_lt_succ (h (List.cons_ne_nil _ _)))

/-- Whether an expression fits on the left side of a binary operator that takes one of
the places: an operator there shares that place. -/
def FitsBeside (room : Nat) (b : Bound) : Prop :=
  b.Fits (if b.isBinary then room + 1 else room)

theorem FitsBeside.fits (h : b.FitsBeside room) : b.Fits (room + 1) := by
  unfold FitsBeside at h
  split at h
  · exact h
  · exact h.succ

theorem FitsBeside.binary (op : BinaryOp) (hb : b.FitsBeside room) (hc : c.Fits room) :
    (Bound.binary op b c).Fits (room + 1) := by
  have hl : (if b.isBinary then b.nest else b.nest + 1) ≤ room + 1 ∧
      ((if b.isBinary then b.nest else b.nest + 1) = room + 1 → b.HasBareCall) := by
    unfold FitsBeside at hb
    cases hi : b.isBinary with
    | true =>
      rw [hi] at hb
      exact hb
    | false =>
      rw [hi] at hb
      exact ⟨Nat.succ_le_succ hb.1, fun hn => hb.2 (Nat.succ.inj hn)⟩
  rw [Fits, nest]
  refine ⟨Nat.max_le.mpr ⟨hl.1, Nat.succ_le_succ hc.1⟩, fun hn => ?_⟩
  rcases Nat.le_total (c.nest + 1) (if b.isBinary then b.nest else b.nest + 1) with h | h
  · rw [Nat.max_eq_left h] at hn
    exact .left op c (hl.2 hn)
  · rw [Nat.max_eq_right h] at hn
    exact .right op b (hc.2 (Nat.succ.inj hn))

end Bound

namespace Binding

/-! ## Operands -/

variable {room : Nat} {b c : Bound}

theorem Coerced.fits (h : Coerced b c) (hb : b.Fits room) : c.Fits room := by
  cases h with
  | same => exact hb
  | convert target => exact ⟨hb.1, fun hn => .convert target (hb.2 hn)⟩
  | member => exact Bound.fits_of_lt hb.pos

theorem isBinary_unconverted : ∀ b : Bound, b.unconverted.isBinary = b.isBinary
  | .convert source _ => isBinary_unconverted source
  | .const _ | .unary .. | .binary .. | .call .. | .within .. | .quantified .. | .access .. | .list _ | .var .. => rfl

theorem Coerced.fitsBeside (h : Coerced b c) (hb : b.FitsBeside room) : c.FitsBeside room := by
  cases h with
  | same => exact hb
  | convert target => exact ⟨hb.1, fun hn => .convert target (hb.2 hn)⟩
  | member hu =>
    have hi : b.isBinary = false := by rw [← isBinary_unconverted, hu]; rfl
    unfold Bound.FitsBeside at hb
    rw [hi] at hb
    exact Bound.fits_of_lt hb.pos

theorem Joined.fitsBeside {op : BinaryOp} {x : Typed} (h : Joined op b c x) (hb : b.FitsBeside room)
    (hc : c.Fits room) : x.node.FitsBeside room := by
  obtain ⟨l, r, hx, hl, hr⟩ := h
  rw [hx]
  exact (hl.fitsBeside hb).binary op (hr.fits hc)

/-! ## Binders -/

/-- Whether all that a binder gives satisfies `P`. -/
def Gives {α : Type} (m : Binder α) (P : α → Prop) : Prop :=
  ∀ s a, (m.run.run s).1 = .ok a → P a

namespace Gives

variable {α β : Type} {m : Binder α} {P : α → Prop} {Q : β → Prop}

theorem pure {a : α} (h : P a) : Gives (Pure.pure a) P := by
  intro _ _ hb
  cases hb
  exact h

theorem lift {x : Except ExprError α} (h : ∀ a, x = .ok a → P a) : Gives (liftM x) P :=
  fun _ => h

theorem any (m : Binder α) : Gives m fun _ => True :=
  fun _ _ _ => trivial

theorem imp {Q : α → Prop} (h : Gives m P) (hpq : ∀ a, P a → Q a) : Gives m Q :=
  fun s a ha => hpq a (h s a ha)

theorem bind {f : α → Binder β} (hm : Gives m P) (hf : ∀ a, P a → Gives (f a) Q) : Gives (m >>= f) Q := by
  intro s b hb
  rw [run_bind] at hb
  have hm := hm s
  generalize m.run.run s = r at hb hm
  obtain ⟨_ | a, s'⟩ := r
  · cases hb
  · exact hf a (hm a rfl) s' b hb

theorem nested (ctx : Context) (h : Gives m P) : Gives (nested ctx m) P := by
  intro s a ha
  rw [run_nested] at ha
  split at ha
  · cases ha
  · exact h _ a ha

theorem withVariable (v : String × EdmType) (h : Gives m P) : Gives (withVariable v m) P := by
  intro s a ha
  rw [run_withVariable] at ha
  exact h _ a ha

end Gives

/-! ## Expressions -/

theorem nest_property {ctx : Context} {owner : Bound} {type name : String} {x : Typed}
    (h : property ctx owner type name = .ok x) : x.node.nest = 0 := by
  unfold property at h
  split at h
  · cases h
  · split at h
    · cases h
      rfl
    · split at h <;> cases h
      rfl
    · cases h

theorem nest_member {ctx : Context} {owner x : Typed} {name : String} (h : member ctx owner name = .ok x) :
    x.node.nest = 0 := by
  unfold member at h
  split at h
  · exact nest_property h
  · exact nest_property h
  · cases h

theorem nest_resolve {ctx : Context} {vars : Scope} {name : String} {x : Typed}
    (h : resolve ctx vars name = .ok x) : x.node.nest = 0 := by
  unfold resolve at h
  refine of_ite h (fun h => ?_) fun h => ?_
  · cases h
    rfl
  · split at h
    · cases h
      rfl
    · exact nest_member h

theorem nest_literal {ctx : Context} {value : Literal} {x : Typed} (h : literal ctx value = .ok x) :
    x.node.nest = 0 := by
  unfold literal at h
  split at h
  · split at h
    · cases h
    · obtain ⟨v, -, rfl⟩ := map_ok h
      rfl
  · cases h
    rfl

section
variable {ctx : Context} {bind : Expr → Binder Typed} (h : ∀ e, Gives (bind e) fun x => x.node.Fits room)
include h

/-- Where there is something to bind there is room for it. -/
theorem gives_bindEach (finish : Nat → Typed → Except ExprError Typed) (index : Nat) (es : List Expr) :
    Gives (bindEach bind finish index es) fun xs => xs ≠ [] → 0 < room := by
  cases es with
  | nil => exact .pure fun hn => absurd rfl hn
  | cons e es =>
    exact (h e).bind fun x hx => (Gives.any _).bind fun _ _ => (Gives.any _).bind fun _ _ => .pure fun _ => hx.pos

theorem gives_bindSteps : ∀ (steps : List (BinaryOp × Expr)) (left : Typed), left.node.FitsBeside room →
    Gives (bindSteps ctx bind left steps) fun x => x.node.FitsBeside room
  | [], _, hl => .pure hl
  | (op, right) :: steps, left, hl => by
    unfold bindSteps
    rw [List.foldlM_cons]
    refine Gives.bind ((h right).bind fun r hr => ?_) fun x hx => gives_bindSteps steps x hx
    exact .lift fun x hx => (joined_combine hx).fitsBeside hl hr

theorem gives_bindExpr (e : Expr) : Gives (bindExpr ctx bind e) fun x => x.node.Fits (room + 1) := by
  have leaf : ∀ {x : Typed}, x.node.nest = 0 → x.node.Fits (room + 1) :=
    fun hx => Bound.fits_of_lt (by omega)
  cases e with
  | literal value => exact .lift fun x hx => leaf (nest_literal hx)
  | list items => exact (Gives.any _).bind fun _ _ => .pure (leaf rfl)
  | name name =>
    intro s x hx
    rw [bindExpr, run_root] at hx
    exact leaf (nest_resolve hx)
  | member owner name => exact (h owner).bind fun _ _ => .lift fun x hx => leaf (nest_member hx)
  | quantifiedEmpty quantifier source =>
    refine (h source).bind fun x hx => (Gives.any _).bind fun _ _ => .pure ?_
    exact Bound.Fits.body _ _ _ (Bound.fits_of_lt hx.pos)
  | quantified quantifier source v body =>
    refine (Gives.any _).bind fun _ _ => (Gives.any _).bind fun _ _ => ((h body).withVariable _).bind fun x hx => ?_
    exact (Gives.any _).bind fun _ _ => .pure (hx.body _ _ _)
  | call function args =>
    refine (Gives.any _).bind fun s _ => (gives_bindEach h _ 0 args).bind fun xs hxs => .pure ?_
    exact Bound.fits_call s.name fun hn => hxs fun he => hn (by rw [he]; rfl)
  | unary op operand =>
    refine (h operand).bind fun x hx => .lift fun y hy => ?_
    rw [node_combineUnary hy]
    exact hx.unary op
  | binary op left right =>
    unfold bindExpr
    refine (h _).bind fun x hx => ?_
    have hb : x.node.FitsBeside room := by
      unfold Bound.FitsBeside
      split
      · exact hx.succ
      · exact hx
    intro s y hy
    exact (gives_bindSteps h _ x hb s y hy).fits
  | within item candidates =>
    refine (h item).bind fun x hx => (Gives.any _).bind fun _ _ => ?_
    have hlist : ∀ items, (Bound.within x.node (.list items)).Fits (room + 1) :=
      fun items => hx.within (Bound.fits_of_lt hx.pos)
    cases candidates with
    | list items => exact (Gives.any _).bind fun _ _ => .pure (hlist _)
    | literal value => exact (Gives.any _).bind fun _ _ => .pure (hlist _)
    | _ => exact (h _).bind fun y hy => (Gives.any _).bind fun _ _ => .pure (hx.within hy)

end

theorem gives_bindIn (ctx : Context) : ∀ (room : Nat) (e : Expr), Gives (bindIn ctx room e) fun x => x.node.Fits room
  | 0, _ => nofun
  | room + 1, e => (gives_bindExpr (gives_bindIn ctx room) e).nested ctx

theorem fits_of_bind {schema : Schema} {type : Element} {options : Options} {e : Expr} {b : Bound}
    (h : bind schema type options e = .ok b) : b.Fits options.maxDepth := by
  have hf : Gives (bindFilter ⟨schema, .entity type.fullName, options⟩ e) (Bound.Fits options.maxDepth) := by
    exact (gives_bindIn _ _ e).bind fun x hx => (Gives.any _).bind fun _ _ => .pure hx
  exact hf _ b h

/-! ## Nesting -/

section
variable {ctx : Context} {bind : Expr → Binder Typed} (h : ∀ e, Gives (bind e) fun _ => e.nesting < room)
include h

theorem nests_bindEach (finish : Nat → Typed → Except ExprError Typed) : ∀ (index : Nat) (es : List Expr),
    Gives (bindEach bind finish index es) fun _ => Expr.nestingEach es ≤ room
  | _, [] => .pure (Nat.zero_le _)
  | index, e :: es => by
    refine (h e).bind fun _ he => (Gives.any _).bind fun _ _ => ?_
    exact (nests_bindEach finish (index + 1) es).bind fun _ hes => .pure (Nat.max_le.mpr ⟨he, hes⟩)

/-- What is bound is nested no deeper than there is room. -/
theorem nests_bindExpr : ∀ e : Expr, Gives (bindExpr ctx bind e) fun _ => e.nesting ≤ room
  | .literal value => .lift fun _ _ => Nat.zero_le _
  | .name name => fun _ _ _ => Nat.zero_le _
  | .list items => (nests_bindEach h _ 0 items).bind fun _ hi => .pure hi
  | .member owner name => (h owner).bind fun _ ho => .lift fun _ _ => ho
  | .quantifiedEmpty quantifier source => (h source).bind fun _ hs => (Gives.any _).bind fun _ _ => .pure hs
  | .quantified quantifier source v body => by
    refine (h source).bind fun _ hs => (Gives.any _).bind fun _ _ => ((h body).withVariable _).bind fun _ hb => ?_
    exact (Gives.any _).bind fun _ _ => .pure (Nat.succ_le_of_lt (Nat.max_lt.mpr ⟨hs, hb⟩))
  | .call function args => (Gives.any _).bind fun _ _ => (nests_bindEach h _ 0 args).bind fun _ ha => .pure ha
  | .unary op operand => (h operand).bind fun _ ho => .lift fun _ _ => ho
  | .binary op left right => by
    rw [bindExpr_binary]
    have hl : Gives (if left.isBinary then bindExpr ctx bind left else bind left)
        fun _ => (if left.isBinary then left.nesting else left.nesting + 1) ≤ room := by
      split
      · exact nests_bindExpr left
      · exact h left
    exact hl.bind fun _ hl => (h right).bind fun _ hr => .lift fun _ _ => Nat.max_le.mpr ⟨hl, hr⟩
  | .within item candidates => by
    refine (h item).bind fun _ hi => (Gives.any _).bind fun _ _ => ?_
    cases candidates with
    | list items => exact (nests_bindEach h _ 0 items).bind fun _ hc => .pure (Nat.max_le.mpr ⟨hi, hc⟩)
    | literal value =>
      have hc : (Expr.literal value).nesting < room := Nat.lt_of_le_of_lt (Nat.zero_le _) hi
      exact (Gives.any _).bind fun _ _ => .pure (Nat.max_le.mpr ⟨hi, hc⟩)
    | _ => exact (h _).bind fun _ hc => (Gives.any _).bind fun _ _ => .pure (Nat.max_le.mpr ⟨hi, hc⟩)

end

theorem nests_bindIn (ctx : Context) : ∀ (room : Nat) (e : Expr), Gives (bindIn ctx room e) fun _ => e.nesting < room
  | 0, _ => nofun
  | room + 1, e => ((nests_bindExpr (nests_bindIn ctx room) e).nested ctx).imp fun _ => Nat.lt_succ_of_le

theorem nesting_of_bind {schema : Schema} {type : Element} {options : Options} {e : Expr} {b : Bound}
    (h : bind schema type options e = .ok b) : e.nesting < options.maxDepth := by
  have hn : Gives (bindFilter ⟨schema, .entity type.fullName, options⟩ e) fun _ => e.nesting < options.maxDepth :=
    (nests_bindIn _ _ e).bind fun _ hn => (Gives.any _).bind fun _ _ => .pure hn
  exact hn _ b h

/-- An expression is bound to its meaning, unless it is nested too deep. -/
theorem bind_eq_ok_iff {schema : Schema} {type : Element} {options : Options} {e : Expr} {b : Bound} :
    bind schema type options e = .ok b ↔
      e.nesting < options.maxDepth ∧ filterMeaning schema type options e = .ok b := by
  have hrun : e.nesting < options.maxDepth →
      bind schema type options e = filterMeaning schema type options e := fun hn => by
    rw [bind, (runs_bindFilter ⟨schema, .entity type.fullName, options⟩ e).eq hn]
    rfl
  constructor
  · intro h
    have hn := nesting_of_bind h
    exact ⟨hn, (hrun hn).symm.trans h⟩
  · rintro ⟨hn, hm⟩
    exact (hrun hn).trans hm

end Binding

/-- What is bound under a limit has a tree under the next one, and under the same one
unless a node of it is a call without arguments. -/
theorem tree_of_bindText {filter : String} {schema : Schema} {type : Element} {options : Options} {b : Bound}
    (h : bindText filter schema type options = .ok b) :
    (∃ t, Tree.ofBound filter b schema { options with maxDepth := options.maxDepth + 1 } = .ok t) ∧
    ∀ e, Tree.ofBound filter b schema options = .error e → b.HasBareCall := by
  obtain ⟨x, -, hb⟩ := bind_ok h
  have hf := Binding.fits_of_bind hb
  refine ⟨⟨_, Tree.ofBound_eq_ok_iff.mpr ⟨Nat.lt_succ_of_le hf.1, rfl⟩⟩, fun e he => ?_⟩
  refine hf.2 (Nat.le_antisymm hf.1 (Nat.le_of_not_lt fun hn => ?_))
  rw [Tree.ofBound_eq_ok_iff.mpr ⟨hn, rfl⟩] at he
  cases he

/-- The calls are the operands of the comparison, so their arguments stand below the limit. -/
theorem tree_of_bindText_now : ∃ user b, users.requireType "User" = .ok user ∧
    bindText "now() eq now()" users user { maxDepth := 2 } = .ok b ∧
    (∃ e, Tree.ofBound "now() eq now()" b users { maxDepth := 2 } = .error e) ∧ b.HasBareCall ∧
    ∃ t, Tree.ofBound "now() eq now()" b users { maxDepth := 3 } = .ok t := by
  have h : (users.requireType "User" >>= fun user =>
      (bindText "now() eq now()" users user { maxDepth := 2 }).mapError fun _ => .empty).toOption.any
      (fun b => b.nest == 2) = true := by
    decide +kernel
  obtain ⟨b, hb, hn⟩ := exists_of_any h
  obtain ⟨user, hu, hb⟩ := bind_ok hb
  have hb := mapError_ok hb
  have he : Tree.ofBound "now() eq now()" b users { maxDepth := 2 } = .error (.tooDeep 2) := by
    rw [Tree.ofBound, grow_root, eq_of_beq hn]
    rfl
  obtain ⟨ht, hc⟩ := tree_of_bindText hb
  exact ⟨user, b, hu, hb, ⟨_, he⟩, hc _ he, ht⟩

end FilterGuard
