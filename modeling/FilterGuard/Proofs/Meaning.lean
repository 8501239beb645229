import FilterGuard.Binding
import FilterGuard.Proofs.Steps

/-!
# Meanings of expressions

What an expression means, by recursion on the expression and under a list of
variables that nothing changes. A binder arrives at this meaning and leaves its
state as it found it, or it reports that the expression is nested too deep.
-/

namespace FilterGuard

mutual

/-- How deep expressions are nested. The left side of a chain of operators is as
deep as the operator behind it, and a list to look in is as deep as `in`. -/
def Expr.nesting : Expr → Nat
  | literal _ | name _ => 0
  | list items => nestingEach items
  | member owner _ => owner.nesting + 1
  | quantifiedEmpty _ source => source.nesting + 1
  | quantified _ source _ body => max source.nesting body.nesting + 1
  | call _ args => nestingEach args
  | unary _ operand => operand.nesting + 1
  | binary _ left right => max (if left.isBinary then left.nesting else left.nesting + 1) (right.nesting + 1)
  | within item candidates =>
    max (item.nesting + 1) (match candidates with
      | list items => nestingEach items
      | other => other.nesting + 1)

def Expr.nestingEach : List Expr → Nat
  | [] => 0
  | e :: es => max (e.nesting + 1) (nestingEach es)

end

namespace Binding

/-- The variables of the quantifiers around an expression, innermost first. -/
abbrev Scope := List (String × EdmType)

/-- What a name that starts a path means under variables. -/
def resolve (ctx : Context) (vars : Scope) (name : String) : Except ExprError Typed :=
  if name = Bound.instanceName then .ok (filtered ctx)
  else match vars.find? fun v => v.1 = name with
    | some (v, type) => .ok ⟨.var v type, some type⟩
    | none => member ctx (filtered ctx) name

mutual

def meaning (ctx : Context) (vars : Scope) : Expr → Except ExprError Typed
  | .literal value => literal ctx value
  | .list items => do
    return list (← meanings ctx vars (fun _ x => .ok x) 0 items)
  | .name name => resolve ctx vars name
  | .member owner name => do
    let owner ← meaning ctx vars owner
    member ctx owner name
  | .quantifiedEmpty quantifier source => do
    let source ← meaning ctx vars source
    let _ ← itemType quantifier source
    return truth (.quantified quantifier source.node none (.const (.boolean true)))
  | .quantified quantifier source v body => do
    let source ← meaning ctx vars source
    let item ← itemType quantifier source
    let body ← meaning ctx ((v, item) :: vars) body
    requireBoolean .quantifierBody body
    return truth (.quantified quantifier source.node (some v) body.node)
  | .call function args => do
    let s ← signature function args.length
    return call s (← meanings ctx vars (asArgument s) 0 args)
  | .unary op operand => do
    let operand ← meaning ctx vars operand
    combineUnary op operand
  | .binary op left right => do
    let left ← meaning ctx vars left
    let right ← meaning ctx vars right
    combine ctx op left right
  | .within item candidates => do
    let subject ← meaning ctx vars item
    requireSingle subject
    match candidates with
    | .list items =>
      let items ← meanings ctx vars (fun _ x => asItem ctx subject.type x) 0 items
      return truth (.within subject.node (.list (items.map Typed.node)))
    | .literal value =>
      let item ← literal ctx value
      let item ← asItem ctx subject.type item
      return truth (.within subject.node (.list [item.node]))
    | other =>
      let candidates ← meaning ctx vars other
      requireCollection candidates
      return truth (.within subject.node candidates.node)

def meanings (ctx : Context) (vars : Scope) (finish : Nat → Typed → Except ExprError Typed) (index : Nat) :
    List Expr → Except ExprError (List Typed)
  | [] => return []
  | e :: rest => do
    let x ← meaning ctx vars e
    let x ← finish index x
    let more ← meanings ctx vars finish (index + 1) rest
    return x :: more

end

/-- What an expression means as a filter. -/
def filterMeaning (schema : Schema) (type : Element) (options : Options) (e : Expr) : Except ExprError Bound := do
  let x ← meaning ⟨schema, .entity type.fullName, options⟩ [] e
  requireBoolean .filter x
  return x.node

/-! ## Chains -/

theorem chain_append (e : Expr) (steps more : List (BinaryOp × Expr)) :
    chain e (steps ++ more) = ((chain e steps).1, (chain e steps).2 ++ more) := by
  fun_induction chain e steps with
  | case1 op left right steps ih => exact ih
  | case2 e steps hb =>
    cases e <;> first | rfl | exact absurd rfl (hb _ _ _)

theorem chain_of_not_isBinary {e : Expr} (h : e.isBinary = false) (steps : List (BinaryOp × Expr)) :
    chain e steps = (e, steps) := by
  cases e <;> first | rfl | cases h

/-- The left side of a chain of operators is bound first, without a place of its own. -/
theorem bindExpr_binary (ctx : Context) (bind : Expr → Binder Typed) (op : BinaryOp) (left right : Expr) :
    bindExpr ctx bind (.binary op left right) = (do
      let x ← (if left.isBinary then bindExpr ctx bind left else bind left)
      let y ← bind right
      combine ctx op x y) := by
  -- This operator is the last step of the chain, and the steps before it are those of the left side alone.
  have hc : chain left [(op, right)] = ((chain left []).1, (chain left []).2 ++ [(op, right)]) :=
    chain_append left [] [(op, right)]
  rw [bindExpr, hc]
  simp only [bindSteps, List.foldlM_append, List.foldlM_cons, List.foldlM_nil, bind_pure]
  by_cases hb : left.isBinary = true
  · obtain ⟨op', l, r, rfl⟩ : ∃ op' l r, left = .binary op' l r := by
      cases left <;> first | exact ⟨_, _, _, rfl⟩ | cases hb
    rw [if_pos hb, bindExpr, bind_assoc]
    rfl
  · rw [if_neg hb, chain_of_not_isBinary (by simpa using hb)]
    simp only [List.foldlM_nil, pure_bind]

/-! ## Running binders -/

theorem run_bind {α β : Type} (m : Binder α) (f : α → Binder β) (s : State) :
    (m >>= f).run.run s = match m.run.run s with
      | (.ok a, s') => (f a).run.run s'
      | (.error e, s') => (.error e, s') := by
  unfold ExceptT.run StateT.run
  simp only [Bind.bind, ExceptT.bind, ExceptT.mk, StateT.bind, ExceptT.bindCont]
  rcases m s with ⟨_ | a, s'⟩ <;> rfl

theorem run_tryFinally {α : Type} (m : Binder α) (f : State → State) (s : State) :
    (tryFinally m (modify f : Binder Unit)).run.run s = ((m.run.run s).1, f (m.run.run s).2) := by
  unfold ExceptT.run StateT.run
  simp only [tryFinally, Functor.map, ExceptT.map, tryFinally', ExceptT.mk, Bind.bind, StateT.bind]
  rcases m s with ⟨_ | a, s'⟩ <;> rfl

theorem run_nested {α : Type} (ctx : Context) (m : Binder α) (s : State) :
    (nested ctx m).run.run s =
      if ctx.options.maxDepth ≤ s.depth then (.error (.tooDeep ctx.options.maxDepth), s)
      else
        let (r, s') := m.run.run { s with depth := s.depth + 1 }
        (r, { s' with depth := s'.depth - 1 }) := by
  unfold nested
  rw [run_bind]
  show (ite _ _ _ : Binder α).run.run s = _
  split
  · rfl
  · exact run_tryFinally m (fun s => { s with depth := s.depth - 1 }) _

theorem run_withVariable {α : Type} (v : String × EdmType) (m : Binder α) (s : State) :
    (withVariable v m).run.run s =
      let (r, s') := m.run.run { s with scopes := s.scopes.push v }
      (r, { s' with scopes := s'.scopes.pop }) :=
  run_tryFinally m (fun s => { s with scopes := s.scopes.pop }) _

/-- The variables that a state has in scope. -/
def State.vars (s : State) : Scope :=
  s.scopes.toList.reverse

theorem State.vars_push (s : State) (v : String × EdmType) :
    State.vars { s with scopes := s.scopes.push v } = v :: s.vars := by
  simp [vars]

theorem run_root (ctx : Context) (name : String) (s : State) :
    (root ctx name).run.run s = (resolve ctx s.vars name, s) := by
  unfold root resolve
  by_cases hn : name = Bound.instanceName
  · rw [if_pos hn, if_pos hn]
    rfl
  · rw [if_neg hn, if_neg hn, run_bind]
    have hf : s.scopes.findRev? (fun v => v.1 = name) = s.vars.find? fun v => v.1 = name := by
      rw [Array.findRev?_eq_find?_reverse, ← Array.find?_toList, Array.toList_reverse, State.vars]
    show ((match s.scopes.findRev? fun v => v.1 = name with
      | some (v, type) => pure ⟨.var v type, some type⟩
      | none => liftM (member ctx (filtered ctx) name) : Binder Typed)).run.run s = _
    rw [hf]
    split <;> rfl

/-! ## Faithful runs -/

/-- Whether a binder gives `r` and leaves the state `s` as it is. It may fail for the
depth instead, but not if the expression `fits`. -/
def Runs {α : Type} (limit : Nat) (m : Binder α) (s : State) (fits : Prop) (r : Except ExprError α) : Prop :=
  m.run.run s = (r, s) ∨ ¬ fits ∧ m.run.run s = (.error (.tooDeep limit), s)

namespace Runs

variable {α β : Type} {limit : Nat} {m : Binder α} {s : State} {fits : Prop} {r : Except ExprError α}

theorem state (h : Runs limit m s fits r) : (m.run.run s).2 = s := by
  obtain h | ⟨-, h⟩ := h <;> rw [h]

theorem eq (h : Runs limit m s fits r) (hf : fits) : m.run.run s = (r, s) :=
  h.resolve_right fun h => h.1 hf

theorem mono {fits' : Prop} (h : Runs limit m s fits r) (hf : fits' → fits) : Runs limit m s fits' r :=
  h.imp_right fun h => ⟨fun h' => h.1 (hf h'), h.2⟩

/-- What cannot run deeper gives its result. -/
theorem lift (x : Except ExprError α) : Runs limit (liftM x : Binder α) s fits x :=
  .inl rfl

theorem bind {f : α → Binder β} {g : α → Except ExprError β} (hm : Runs limit m s fits r)
    (hf : ∀ a, r = .ok a → Runs limit (f a) s fits (g a)) : Runs limit (m >>= f) s fits (r >>= g) := by
  obtain h | ⟨hn, h⟩ := hm
  · rw [Runs, run_bind, h]
    cases r with
    | error => exact .inl rfl
    | ok a => exact hf a rfl
  · exact .inr ⟨hn, by rw [run_bind, h]⟩

theorem nested {ctx : Context} (h : Runs limit m { s with depth := s.depth + 1 } fits r)
    (hs : s.depth < ctx.options.maxDepth) : Runs limit (nested ctx m) s fits r := by
  rw [Runs, run_nested, if_neg (by omega)]
  obtain h | ⟨hn, h⟩ := h
  · exact .inl (by rw [h]; rfl)
  · exact .inr ⟨hn, by rw [h]; rfl⟩

theorem withVariable {v : String × EdmType} (h : Runs limit m { s with scopes := s.scopes.push v } fits r) :
    Runs limit (withVariable v m) s fits r := by
  rw [Runs, run_withVariable]
  obtain h | ⟨hn, h⟩ := h
  · exact .inl (by rw [h]; simp)
  · exact .inr ⟨hn, by rw [h]; simp⟩

end Runs

/-- Whether an expression runs to its meaning, as far as there is room for it. -/
def Faithful (ctx : Context) (e : Expr) : Prop :=
  ∀ (room : Nat) (s : State), s.depth + room = ctx.options.maxDepth →
    Runs ctx.options.maxDepth (bindExpr ctx (bindIn ctx room) e) s (e.nesting ≤ room) (meaning ctx s.vars e)

variable {ctx : Context} {room : Nat} {s : State}

theorem Faithful.bindIn {e : Expr} (h : Faithful ctx e) (hs : s.depth + room = ctx.options.maxDepth) :
    Runs ctx.options.maxDepth (Binding.bindIn ctx room e) s (e.nesting < room) (meaning ctx s.vars e) := by
  cases room with
  | zero => exact .inr ⟨Nat.not_lt_zero _, rfl⟩
  | succ room =>
    have h := h room { s with depth := s.depth + 1 } (by show s.depth + 1 + room = _; omega)
    exact (h.mono Nat.le_of_lt_succ).nested (by omega)

theorem Faithful.bindEach {es : List Expr} (h : ∀ e ∈ es, Faithful ctx e)
    (hs : s.depth + room = ctx.options.maxDepth) (finish : Nat → Typed → Except ExprError Typed) (index : Nat) :
    Runs ctx.options.maxDepth (Binding.bindEach (Binding.bindIn ctx room) finish index es) s
      (Expr.nestingEach es ≤ room) (meanings ctx s.vars finish index es) := by
  induction es generalizing index with
  | nil => exact .inl rfl
  | cons e es ih =>
    obtain ⟨he, hes⟩ := List.forall_mem_cons.mp h
    have hfits : Expr.nestingEach (e :: es) ≤ room → e.nesting < room ∧ Expr.nestingEach es ≤ room := by
      rw [Expr.nestingEach]
      omega
    rw [meanings, Binding.bindEach]
    refine ((he.bindIn hs).mono fun h => (hfits h).1).bind fun x _ => (Runs.lift _).bind fun y _ => ?_
    exact ((ih hes (index + 1)).mono fun h => (hfits h).2).bind fun more _ => .inl rfl

mutual

theorem faithful (ctx : Context) : ∀ e : Expr, Faithful ctx e
  | .literal value => fun _ _ _ => by
    rw [meaning, bindExpr]
    exact .lift _
  | .list items => fun room s hs => by
    rw [meaning, bindExpr, Expr.nesting]
    exact (Faithful.bindEach (faithful_each ctx items) hs _ 0).bind fun _ _ => .inl rfl
  | .name name => fun _ s _ => by
    rw [meaning, bindExpr]
    exact .inl (run_root ctx name s)
  | .member owner name => fun room s hs => by
    rw [meaning, bindExpr, Expr.nesting]
    exact ((faithful ctx owner).bindIn hs).bind fun _ _ => .lift _
  | .quantifiedEmpty quantifier source => fun room s hs => by
    rw [meaning, bindExpr, Expr.nesting]
    exact ((faithful ctx source).bindIn hs).bind fun _ _ => (Runs.lift _).bind fun _ _ => .inl rfl
  | .quantified quantifier source v body => fun room s hs => by
    rw [meaning, bindExpr, Expr.nesting]
    refine (((faithful ctx source).bindIn hs).mono (by omega)).bind fun _ _ => (Runs.lift _).bind fun item _ => ?_
    have hb := ((faithful ctx body).bindIn (s := { s with scopes := s.scopes.push (v, item) }) hs)
    rw [State.vars_push] at hb
    exact (hb.mono (by omega)).withVariable.bind fun _ _ => (Runs.lift _).bind fun _ _ => .inl rfl
  | .call function args => fun room s hs => by
    rw [meaning, bindExpr, Expr.nesting]
    exact (Runs.lift _).bind fun _ _ => (Faithful.bindEach (faithful_each ctx args) hs _ 0).bind fun _ _ => .inl rfl
  | .unary op operand => fun room s hs => by
    rw [meaning, bindExpr, Expr.nesting]
    exact ((faithful ctx operand).bindIn hs).bind fun _ _ => .lift _
  | .binary op left right => fun room s hs => by
    rw [meaning, bindExpr_binary, Expr.nesting]
    have hl : Runs ctx.options.maxDepth
        (if left.isBinary then bindExpr ctx (bindIn ctx room) left else bindIn ctx room left) s
        ((if left.isBinary then left.nesting else left.nesting + 1) ≤ room) (meaning ctx s.vars left) := by
      split
      · exact faithful ctx left room s hs
      · exact (faithful ctx left).bindIn hs
    refine (hl.mono fun h => (Nat.max_le.mp h).1).bind fun _ _ => ?_
    exact (((faithful ctx right).bindIn hs).mono fun h => (Nat.max_le.mp h).2).bind fun _ _ => .lift _
  | .within item candidates => fun room s hs => by
    have hi : (Expr.within item candidates).nesting ≤ room → item.nesting < room := by
      rw [Expr.nesting.eq_def]
      simp only
      omega
    rw [meaning, bindExpr]
    refine (((faithful ctx item).bindIn hs).mono hi).bind fun subject _ => (Runs.lift _).bind fun _ _ => ?_
    let asItem := fun (_ : Nat) x => asItem ctx subject.type x
    cases candidates with
    | list items =>
      rw [Expr.nesting]
      have hc := Faithful.bindEach (faithful_each ctx items) hs asItem 0
      exact (hc.mono fun h => (Nat.max_le.mp h).2).bind fun _ _ => .inl rfl
    | literal value =>
      -- The binder takes a literal for a list of one item, the meaning has no list.
      have hc := Faithful.bindEach (List.forall_mem_singleton.mpr (faithful ctx (.literal value))) hs asItem 0
      have hn : (Expr.within item (.literal value)).nesting ≤ room → Expr.nestingEach [.literal value] ≤ room := by
        simp only [Expr.nesting, Expr.nestingEach]
        omega
      let finish (items : List Typed) := truth (.within subject.node (.list (items.map Typed.node)))
      have h := (hc.mono hn).bind (f := fun items => pure (finish items)) (g := fun items => pure (finish items))
        fun _ _ => .inl rfl
      simpa only [meanings, meaning, bind_assoc, pure_bind, finish, List.map_cons, List.map_nil] using h
    | _ =>
      refine (((faithful ctx _).bindIn hs).mono ?_).bind fun _ _ => (Runs.lift _).bind fun _ _ => .inl rfl
      simp only [Expr.nesting]
      omega

theorem faithful_each (ctx : Context) : ∀ es : List Expr, ∀ e ∈ es, Faithful ctx e
  | [] => nofun
  | e :: es => List.forall_mem_cons.mpr ⟨faithful ctx e, faithful_each ctx es⟩

end

theorem runs_bindFilter (ctx : Context) (e : Expr) :
    Runs ctx.options.maxDepth (bindFilter ctx e) ⟨#[], 0⟩ (e.nesting < ctx.options.maxDepth) (do
      let x ← meaning ctx [] e
      requireBoolean .filter x
      return x.node) :=
  ((faithful ctx e).bindIn (s := ⟨#[], 0⟩) (Nat.zero_add _)).bind fun _ _ => (Runs.lift _).bind fun _ _ => .inl rfl

/-- What has been bound is the node of what the expression means. -/
theorem meaning_of_bind {schema : Schema} {type : Element} {options : Options} {e : Expr} {b : Bound}
    (h : bind schema type options e = .ok b) :
    ∃ x, meaning ⟨schema, .entity type.fullName, options⟩ [] e = .ok x ∧ requireBoolean .filter x = .ok () ∧
      x.node = b := by
  rw [bind] at h
  obtain hr | ⟨-, hr⟩ := runs_bindFilter ⟨schema, .entity type.fullName, options⟩ e
  · rw [hr] at h
    obtain ⟨x, hx, h⟩ := bind_ok h
    obtain ⟨_, hb, h⟩ := bind_ok h
    exact ⟨x, hx, hb, Except.ok.inj h⟩
  · rw [hr] at h
    cases h

/-- Binding gives an expression its meaning if it is nested less deep than the limit. A
binder in any state takes the variables of that state, and leaves them as they are
however it ends. -/
theorem bind_eq_filterMeaning (schema : Schema) (type : Element) (options : Options) (e : Expr)
    (h : e.nesting < options.maxDepth) :
    bind schema type options e = filterMeaning schema type options e ∧
    ∀ (room : Nat) (s : State) (part : Expr), s.depth + room = options.maxDepth →
      let run := (bindIn ⟨schema, .entity type.fullName, options⟩ room part).run.run s
      run.2 = s ∧
      (part.nesting < room → run.1 = meaning ⟨schema, .entity type.fullName, options⟩ s.vars part) := by
  let ctx : Context := ⟨schema, .entity type.fullName, options⟩
  refine ⟨?_, fun room s part hs => ?_⟩
  · rw [bind, (runs_bindFilter ctx e).eq h]
    rfl
  · have hr := (faithful ctx part).bindIn hs
    exact ⟨hr.state, fun hp => by rw [hr.eq hp]⟩

end Binding

def users : Schema :=
  ⟨[⟨"N", "User", .entity, ["email"],
      [⟨"email", .primitive .string⟩, ⟨"name", .primitive .string⟩, ⟨"logins", .collection (.complex "N.Login")⟩],
      [], false⟩,
    ⟨"N", "Login", .complex, [],
      [⟨"name", .primitive .string⟩, ⟨"devices", .collection (.complex "N.Login")⟩], [], false⟩]⟩

/-- A filter whose inner variable hides the outer one, and whose last path stands behind
both quantifiers: `logins/any(x: x/devices/all(x: x/name eq 'a') and x/name eq name) or name eq 'b'`. -/
def shadowing : Expr :=
  let equals (left right : Expr) := Expr.binary .eq left right
  let text (s : String) := Expr.literal (.string s)
  .binary .or
    (.quantified .any (.name "logins") "x"
      (.binary .and
        (.quantified .all (.member (.name "x") "devices") "x" (equals (.member (.name "x") "name") (text "a")))
        (equals (.member (.name "x") "name") (.name "name"))))
    (equals (.name "name") (text "b"))

theorem bind_shadowing :
    ∃ user, users.requireType "User" = .ok user ∧ shadowing.nesting < Options.maxDepth {} ∧
      Binding.bind users user {} shadowing = .ok (
        let it := Bound.var Bound.instanceName (.entity "N.User")
        let x := Bound.var "x" (.complex "N.Login")
        let name (owner : Bound) := Bound.access .property (some owner) "name"
        let text (s : String) := Bound.const (.string s)
        .binary .or
          (.quantified .any (.access .collectionComplex (some it) "logins") (some "x")
            (.binary .and
              (.quantified .all (.access .collectionComplex (some x) "devices") (some "x")
                (.binary .eq (name x) (text "a")))
              (.binary .eq (name x) (name it))))
          (.binary .eq (name it) (text "b"))) := by
  refine ⟨_, rfl, by decide, ?_⟩
  rw [(Binding.bind_eq_filterMeaning users _ {} shadowing (by decide)).1]
  rfl

end FilterGuard
