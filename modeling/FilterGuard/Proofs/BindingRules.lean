import FilterGuard.Proofs.Coercion
import FilterGuard.Proofs.Meaning
import Mathlib.Data.List.Forall2

/-!
# Binding, rule by rule

The meaning of an expression as a relation with a rule for each form of expression,
so that what holds of all bound expressions can be shown by induction on how they
came about. Lists of expressions are taken as pairs of an expression and what it
means.
-/

namespace FilterGuard

/-- What stands right of `in` if it is written out: a list, or a literal for a list of one. -/
def Expr.items? : Expr → Option (List Expr)
  | list items => some items
  | literal value => some [literal value]
  | _ => none

namespace Binding

inductive Means (ctx : Context) : Scope → Expr → Typed → Prop
  | literal {vars : Scope} {value : Literal} {x : Typed} (h : literal ctx value = .ok x) :
      Means ctx vars (.literal value) x
  | list {vars : Scope} {es : List Expr} {xs : List Typed} (hl : es.length = xs.length)
      (hz : ∀ p ∈ es.zip xs, Means ctx vars p.1 p.2) : Means ctx vars (.list es) (list xs)
  | name {vars : Scope} {name : String} {x : Typed} (h : resolve ctx vars name = .ok x) :
      Means ctx vars (.name name) x
  | member {vars : Scope} {owner : Expr} {name : String} {x y : Typed} (ho : Means ctx vars owner x)
      (h : member ctx x name = .ok y) : Means ctx vars (.member owner name) y
  | quantifiedEmpty {vars : Scope} {source : Expr} {x : Typed} {item : EdmType} (quantifier : Quantifier)
      (hs : Means ctx vars source x) (hi : itemType quantifier x = .ok item) :
      Means ctx vars (.quantifiedEmpty quantifier source)
        (truth (.quantified quantifier x.node none (.const (.boolean true))))
  | quantified {vars : Scope} {source body : Expr} {x y : Typed} {item : EdmType} (quantifier : Quantifier)
      (v : String) (hs : Means ctx vars source x) (hi : itemType quantifier x = .ok item)
      (hb : Means ctx ((v, item) :: vars) body y) (hy : requireBoolean .quantifierBody y = .ok ()) :
      Means ctx vars (.quantified quantifier source v body) (truth (.quantified quantifier x.node (some v) y.node))
  | call {vars : Scope} {function : String} {s : Signature} {args : List Expr} {xs : List Typed}
      (hs : signature function args.length = .ok s) (hl : args.length = xs.length)
      (hz : ∀ p ∈ args.zip xs, Means ctx vars p.1 p.2)
      (ha : ∀ p ∈ xs.zipIdx, asArgument s p.2 p.1 = .ok p.1) : Means ctx vars (.call function args) (call s xs)
  | unary {vars : Scope} {op : UnaryOp} {operand : Expr} {x y : Typed} (ho : Means ctx vars operand x)
      (h : combineUnary op x = .ok y) : Means ctx vars (.unary op operand) y
  | binary {vars : Scope} {op : BinaryOp} {left right : Expr} {x y z : Typed} (hl : Means ctx vars left x)
      (hr : Means ctx vars right y) (h : combine ctx op x y = .ok z) : Means ctx vars (.binary op left right) z
  | among {vars : Scope} {item candidates : Expr} {x : Typed} {es : List Expr} {xs ys : List Typed}
      (hi : Means ctx vars item x) (hx : requireSingle x = .ok ()) (hc : candidates.items? = some es)
      (hl : es.length = xs.length) (hz : ∀ p ∈ es.zip xs, Means ctx vars p.1 p.2)
      (hy : List.Forall₂ (fun x' y => asItem ctx x.type x' = .ok y) xs ys) :
      Means ctx vars (.within item candidates) (truth (.within x.node (.list (ys.map Typed.node))))
  | within {vars : Scope} {item candidates : Expr} {x y : Typed} (hi : Means ctx vars item x)
      (hx : requireSingle x = .ok ()) (hn : candidates.items? = none) (hc : Means ctx vars candidates y)
      (hy : requireCollection y = .ok ()) : Means ctx vars (.within item candidates) (truth (.within x.node y.node))

variable {ctx : Context} {vars : Scope}

/-! ## Expressions one by one -/

theorem meanings_ok_iff {finish : Nat → Typed → Except ExprError Typed} :
    ∀ {es : List Expr} {index : Nat} {ys : List Typed}, meanings ctx vars finish index es = .ok ys ↔
      ∃ xs, List.Forall₂ (fun e x => meaning ctx vars e = .ok x) es xs ∧
        List.Forall₂ (fun p y => finish p.2 p.1 = .ok y) (xs.zipIdx index) ys
  | [], index, ys => by
    rw [meanings]
    constructor
    · intro h
      cases h
      exact ⟨[], .nil, .nil⟩
    · rintro ⟨_, ⟨⟩, ⟨⟩⟩
      rfl
  | e :: es, index, ys => by
    rw [meanings]
    constructor
    · intro h
      obtain ⟨x, hx, h⟩ := bind_ok h
      obtain ⟨y, hy, h⟩ := bind_ok h
      obtain ⟨more, hm, h⟩ := bind_ok h
      cases h
      obtain ⟨xs, hxs, hys⟩ := meanings_ok_iff.mp hm
      exact ⟨x :: xs, .cons hx hxs, .cons hy hys⟩
    · rintro ⟨_, _ | ⟨hx, hxs⟩, _ | ⟨hy, hys⟩⟩
      rw [ok_bind hx, ok_bind hy, ok_bind (meanings_ok_iff.mpr ⟨_, hxs, hys⟩)]
      rfl

/-- Where the place of an expression does not matter. -/
theorem meanings_const_ok_iff {f : Typed → Except ExprError Typed} {es : List Expr} {ys : List Typed} :
    meanings ctx vars (fun _ x => f x) 0 es = .ok ys ↔
      ∃ xs, List.Forall₂ (fun e x => meaning ctx vars e = .ok x) es xs ∧
        List.Forall₂ (fun x y => f x = .ok y) xs ys := by
  have hf : ∀ xs : List Typed, List.Forall₂ (fun p y => f p.1 = .ok y) xs.zipIdx ys ↔
      List.Forall₂ (fun x y => f x = .ok y) xs ys := fun xs => by
    have h := List.forall₂_map_left_iff (R := fun x y => f x = .ok y) (f := Prod.fst) (l := xs.zipIdx) (u := ys)
    rw [← h, List.zipIdx_map_fst]
  simp only [meanings_ok_iff, hf]

theorem asArgument_eq {s : Signature} {index : Nat} {x y : Typed} (h : asArgument s index x = .ok y) : y = x := by
  unfold asArgument at h
  split at h <;> cases h
  rfl

/-- Arguments are taken as they are. -/
theorem arguments_ok_iff {s : Signature} {index : Nat} {xs ys : List Typed} :
    List.Forall₂ (fun p y => asArgument s p.2 p.1 = .ok y) (xs.zipIdx index) ys ↔
      ys = xs ∧ ∀ p ∈ xs.zipIdx index, asArgument s p.2 p.1 = .ok p.1 := by
  have hsame : List.Forall₂ (fun p y => asArgument s p.2 p.1 = .ok y) (xs.zipIdx index) xs ↔
      ∀ p ∈ xs.zipIdx index, asArgument s p.2 p.1 = .ok p.1 := by
    have h := List.forall₂_map_right_iff (R := fun p y => asArgument s p.2 p.1 = .ok y) (f := Prod.fst)
      (l := xs.zipIdx index) (u := xs.zipIdx index)
    rw [List.zipIdx_map_fst] at h
    exact h.trans List.forall₂_same
  constructor
  · intro h
    have heq : List.Forall₂ (· = ·) ((xs.zipIdx index).map Prod.fst) ys :=
      List.forall₂_map_left_iff.mpr (h.imp fun _ _ hp => (asArgument_eq hp).symm)
    rw [List.zipIdx_map_fst, List.forall₂_eq_eq_eq] at heq
    subst heq
    exact ⟨rfl, hsame.mp h⟩
  · rintro ⟨rfl, h⟩
    exact hsame.mpr h

/-! ## Rules and meanings -/

theorem Means.of_each {es : List Expr} (he : ∀ e ∈ es, ∀ x, meaning ctx vars e = .ok x → Means ctx vars e x)
    {xs : List Typed} (h : List.Forall₂ (fun e x => meaning ctx vars e = .ok x) es xs) :
    es.length = xs.length ∧ ∀ p ∈ es.zip xs, Means ctx vars p.1 p.2 :=
  ⟨h.length_eq, fun p hp => he p.1 (List.of_mem_zip hp).1 p.2 (List.forall₂_zip h hp)⟩

mutual

theorem means_of_meaning (ctx : Context) : ∀ (e : Expr) (vars : Scope) (x : Typed), meaning ctx vars e = .ok x →
    Means ctx vars e x
  | .literal value, vars, x, h => by
    rw [meaning] at h
    exact .literal h
  | .list items, vars, x, h => by
    rw [meaning] at h
    obtain ⟨ys, hy, h⟩ := bind_ok h
    cases h
    obtain ⟨xs, hxs, hys⟩ := meanings_const_ok_iff.mp hy
    have heq : xs = ys := List.forall₂_eq_eq_eq ▸ hys.imp fun _ _ => Except.ok.inj
    subst heq
    obtain ⟨hl, hz⟩ := Means.of_each (means_of_meaning_each ctx items vars) hxs
    exact .list hl hz
  | .name name, vars, x, h => by
    rw [meaning] at h
    exact .name h
  | .member owner name, vars, x, h => by
    rw [meaning] at h
    obtain ⟨o, ho, h⟩ := bind_ok h
    exact .member (means_of_meaning ctx owner vars o ho) h
  | .quantifiedEmpty quantifier source, vars, x, h => by
    rw [meaning] at h
    obtain ⟨s, hs, h⟩ := bind_ok h
    obtain ⟨item, hi, h⟩ := bind_ok h
    cases h
    exact .quantifiedEmpty quantifier (means_of_meaning ctx source vars s hs) hi
  | .quantified quantifier source v body, vars, x, h => by
    rw [meaning] at h
    obtain ⟨s, hs, h⟩ := bind_ok h
    obtain ⟨item, hi, h⟩ := bind_ok h
    obtain ⟨b, hb, h⟩ := bind_ok h
    obtain ⟨_, hy, h⟩ := bind_ok h
    cases h
    exact .quantified quantifier v (means_of_meaning ctx source vars s hs) hi (means_of_meaning ctx body _ b hb) hy
  | .call function args, vars, x, h => by
    rw [meaning] at h
    obtain ⟨s, hs, h⟩ := bind_ok h
    obtain ⟨ys, hy, h⟩ := bind_ok h
    cases h
    obtain ⟨xs, hxs, hys⟩ := meanings_ok_iff.mp hy
    obtain ⟨rfl, ha⟩ := arguments_ok_iff.mp hys
    obtain ⟨hl, hz⟩ := Means.of_each (means_of_meaning_each ctx args vars) hxs
    exact .call hs hl hz ha
  | .unary op operand, vars, x, h => by
    rw [meaning] at h
    obtain ⟨o, ho, h⟩ := bind_ok h
    exact .unary (means_of_meaning ctx operand vars o ho) h
  | .binary op left right, vars, x, h => by
    rw [meaning] at h
    obtain ⟨l, hl, h⟩ := bind_ok h
    obtain ⟨r, hr, h⟩ := bind_ok h
    exact .binary (means_of_meaning ctx left vars l hl) (means_of_meaning ctx right vars r hr) h
  | .within item candidates, vars, x, h => by
    rw [meaning] at h
    obtain ⟨subject, hi, h⟩ := bind_ok h
    obtain ⟨_, hx, h⟩ := bind_ok h
    have hi := means_of_meaning ctx item vars subject hi
    cases candidates with
    | list items =>
      obtain ⟨ys, hy, h⟩ := bind_ok h
      cases h
      obtain ⟨xs, hxs, hys⟩ := meanings_const_ok_iff.mp hy
      obtain ⟨hl, hz⟩ := Means.of_each (means_of_meaning_each ctx items vars) hxs
      exact .among hi hx rfl hl hz hys
    | literal value =>
      obtain ⟨v, hv, h⟩ := bind_ok h
      obtain ⟨y, hy, h⟩ := bind_ok h
      cases h
      exact .among hi hx rfl rfl (List.forall_mem_singleton.mpr (.literal hv)) (.cons hy .nil)
    | _ =>
      obtain ⟨y, hc, h⟩ := bind_ok h
      obtain ⟨_, hy, h⟩ := bind_ok h
      cases h
      exact .within hi hx rfl (means_of_meaning ctx _ vars y hc) hy

theorem means_of_meaning_each (ctx : Context) : ∀ (es : List Expr) (vars : Scope), ∀ e ∈ es, ∀ x : Typed,
    meaning ctx vars e = .ok x → Means ctx vars e x
  | [], _ => nofun
  | e :: es, vars => List.forall_mem_cons.mpr ⟨means_of_meaning ctx e vars, means_of_meaning_each ctx es vars⟩

end

theorem meaning_of_means {e : Expr} {x : Typed} (h : Means ctx vars e x) : meaning ctx vars e = .ok x := by
  have heach : ∀ {vars : Scope} {es : List Expr} {xs : List Typed}, es.length = xs.length →
      (∀ p ∈ es.zip xs, meaning ctx vars p.1 = .ok p.2) →
      List.Forall₂ (fun e x => meaning ctx vars e = .ok x) es xs :=
    fun hl hz => List.forall₂_iff_zip.mpr ⟨hl, fun hp => hz _ hp⟩
  induction h with
  | literal h => rwa [meaning]
  | list hl _ ih =>
    rw [meaning, ok_bind (meanings_const_ok_iff.mpr ⟨_, heach hl ih, List.forall₂_same.mpr fun _ _ => rfl⟩)]
    rfl
  | name h => rwa [meaning]
  | member _ h ih => rwa [meaning, ok_bind ih]
  | quantifiedEmpty _ _ hi ih =>
    rw [meaning, ok_bind ih, ok_bind hi]
    rfl
  | quantified _ _ _ hi _ hy ihs ihb =>
    rw [meaning, ok_bind ihs, ok_bind hi, ok_bind ihb, ok_bind hy]
    rfl
  | call hs hl _ ha ih =>
    rw [meaning, ok_bind hs, ok_bind (meanings_ok_iff.mpr ⟨_, heach hl ih, arguments_ok_iff.mpr ⟨rfl, ha⟩⟩)]
    rfl
  | unary _ h ih => rwa [meaning, ok_bind ih]
  | binary _ _ h ihl ihr => rwa [meaning, ok_bind ihl, ok_bind ihr]
  | @among vars item candidates x es xs ys _ hx hc hl _ hy ihi ih =>
    rw [meaning, ok_bind ihi, ok_bind hx]
    have hes := heach hl ih
    cases candidates with
    | list items =>
      cases hc
      dsimp only
      rw [ok_bind (meanings_const_ok_iff.mpr ⟨_, hes, hy⟩)]
      rfl
    | literal value =>
      cases hc
      obtain _ | ⟨hv, _ | _⟩ := hes
      obtain _ | ⟨hy, _ | _⟩ := hy
      rw [meaning] at hv
      dsimp only
      rw [ok_bind hv, ok_bind hy]
      rfl
    | _ => cases hc
  | within _ hx hn _ hy ihi ihc =>
    rw [meaning, ok_bind ihi, ok_bind hx]
    split
    · cases hn
    · cases hn
    · rw [ok_bind ihc, ok_bind hy]
      rfl

/-- An expression has the meaning that the rules give it. -/
theorem meaning_ok_iff {e : Expr} {x : Typed} : meaning ctx vars e = .ok x ↔ Means ctx vars e x :=
  ⟨means_of_meaning ctx e vars x, meaning_of_means⟩

/-! ## What names and literals become -/

theorem literal_ok {value : Literal} {x : Typed} (h : literal ctx value = .ok x) : ∃ v, x = ⟨.const v, v.type⟩ := by
  unfold literal at h
  split at h
  · split at h
    · cases h
    · obtain ⟨v, -, rfl⟩ := map_ok h
      exact ⟨v, rfl⟩
  · cases h
    exact ⟨_, rfl⟩

/-- A member is a property of one type. -/
theorem exists_property {owner x : Typed} {name : String} (h : member ctx owner name = .ok x) :
    ∃ type, ∀ name, member ctx owner name = property ctx owner.node type name := by
  unfold member at h
  split at h
  · next type ht => exact ⟨type, fun _ => by rw [member, ht]⟩
  · next type ht => exact ⟨type, fun _ => by rw [member, ht]⟩
  · cases h

theorem node_member {owner x : Typed} {name : String} (h : member ctx owner name = .ok x) :
    ∃ sort declared, x.node = .access sort (some owner.node) declared := by
  obtain ⟨type, hm⟩ := exists_property h
  rw [hm] at h
  unfold property at h
  split at h
  · cases h
  · split at h
    · cases h
      exact ⟨_, _, rfl⟩
    · split at h <;> cases h
      exact ⟨_, _, rfl⟩
    · cases h

/-- A name is a variable or a property of the filtered instance. -/
theorem node_resolve {name : String} {x : Typed} (h : resolve ctx vars name = .ok x) :
    (∃ v type, x.node = .var v type) ∨ ∃ sort declared, x.node = .access sort (some (filtered ctx).node) declared := by
  unfold resolve at h
  split at h
  · cases h
    exact .inl ⟨_, _, rfl⟩
  · split at h
    · cases h
      exact .inl ⟨_, _, rfl⟩
    · exact .inr (node_member h)

/-- No rule ends with a conversion, and only a list is bound to a list. -/
theorem node_of_means {e : Expr} {x : Typed} (h : Means ctx vars e x) :
    (∀ source target, x.node ≠ .convert source target) ∧ (e.items? = none → ∀ items, x.node ≠ .list items) := by
  cases h with
  | literal h =>
    obtain ⟨v, rfl⟩ := literal_ok h
    exact ⟨nofun, nofun⟩
  | list => exact ⟨nofun, nofun⟩
  | name h =>
    obtain ⟨_, _, hv⟩ | ⟨_, _, hv⟩ := node_resolve h <;> rw [hv] <;> exact ⟨nofun, nofun⟩
  | member _ h =>
    obtain ⟨_, _, hm⟩ := node_member h
    rw [hm]
    exact ⟨nofun, nofun⟩
  | unary _ h =>
    rw [node_combineUnary h]
    exact ⟨nofun, nofun⟩
  | binary _ _ h =>
    obtain ⟨_, _, hj, _⟩ := joined_combine h
    rw [hj]
    exact ⟨nofun, nofun⟩
  | _ => exact ⟨nofun, nofun⟩

end Binding

end FilterGuard
