import FilterGuard.Proofs.Paths
import FilterGuard.Proofs.Promotion
import FilterGuard.Proofs.Wording

/-!
# Binding what was bound

A bound expression, written with its declared names and without its conversions, means
what it is: binding finds the same properties, makes the same conversions, and takes the
members of enumerations for what they have become.
-/

namespace FilterGuard
open Text

namespace Binding

variable {ctx : Context} {vars : Scope}

/-- Whether each enumeration of a schema is found by its full name. -/
def Visible (s : Schema) : Prop :=
  ∀ e ∈ s.elements, e.kind = .enum → s.enumType e.fullName = some e

/-! ## Names -/

theorem member_again {owner x : Typed} {name : String} (h : member ctx owner name = .ok x) :
    ∃ sort declared, x.node = .access sort (some owner.node) declared ∧ sameName declared name = true ∧
      member ctx owner declared = .ok x := by
  obtain ⟨type, hm⟩ := exists_property h
  rw [hm] at h
  have h' := h
  unfold property at h
  split at h
  · cases h
  next e he =>
  split at h
  · next p hp =>
    cases h
    -- The declared name is an exact match, which comes before all matches in another case.
    refine ⟨_, _, rfl, sameName_of_found hp, ?_⟩
    have hagain : e.findProperty p.name ctx.options.ignoreCase = .found p := by
      rw [Element.findProperty, find?_of_findProperty hp]
    rw [hm, property, he]
    dsimp only
    rw [hagain]
  · split at h
    · cases h
      exact ⟨_, _, rfl, sameName_self name, (hm name).trans h'⟩
    · cases h
  · cases h

/-- A property of the filtered instance is reached from its name alone, if nothing hides it. -/
theorem root_again {x : Typed} {name : String} (hn : Token.IsIdentifier name)
    (h : member ctx (filtered ctx) name = .ok x) (hl : x.node.legible (vars.map Prod.fst) = true) :
    ∃ root, x.node.written = .name root ∧ (Expr.name root).Orderly ∧ resolve ctx vars root = .ok x := by
  obtain ⟨sort, declared, hx, hs, hagain⟩ := member_again h
  rw [hx, Bound.legible] at hl
  simp only [Bool.and_eq_true, decide_eq_true_eq] at hl
  obtain ⟨⟨⟨-, hinf⟩, hnan⟩, hroot⟩ := hl
  have hi : (filtered ctx).node.isInstance = true := rfl
  rw [hi, Bool.not_true, Bool.false_or] at hroot
  simp only [Bool.and_eq_true, decide_eq_true_eq] at hroot
  obtain ⟨⟨hinst, hvars⟩, hword⟩ := hroot
  refine ⟨declared, ?_, .name (hn.of_sameName hs ⟨hinf, hnan⟩) hword, ?_⟩
  · rw [hx, Bound.written, if_pos hi]
  · have hf : vars.find? (fun v => v.1 = declared) = none := by
      refine List.find?_eq_none.mpr fun v hv heq => hvars ?_
      exact List.mem_map.mpr ⟨v, hv, of_decide_eq_true heq⟩
    rw [resolve, if_neg hinst, hf]
    exact hagain

theorem resolve_again {x : Typed} {name : String} (ho : (Expr.name name).Orderly) (h : resolve ctx vars name = .ok x)
    (hl : x.node.legible (vars.map Prod.fst) = true) :
    ∃ root, x.node.written = .name root ∧ (Expr.name root).Orderly ∧ resolve ctx vars root = .ok x := by
  have h' := h
  unfold resolve at h
  split at h
  · next hi =>
    cases h
    exact ⟨name, by rw [filtered, Bound.written, hi], ho, h'⟩
  · split at h
    · next v type hf =>
      cases h
      have hv : v = name := by simpa using List.find?_some hf
      exact ⟨name, by rw [Bound.written, hv], ho, h'⟩
    · cases ho with
      | name hn => exact root_again hn h hl

/-- Only the name of the filtered instance means the filtered instance. -/
theorem filtered_of_means {e : Expr} {x : Typed} (h : Means ctx vars e x) (hi : x.node.isInstance = true) :
    x = filtered ctx := by
  cases h with
  | literal h =>
    obtain ⟨v, rfl⟩ := literal_ok h
    cases hi
  | @name _ name _ h =>
    unfold resolve at h
    split at h
    · cases h
      rfl
    · next hne =>
      split at h
      · next v type hf =>
        cases h
        have hv : v = name := by simpa using List.find?_some hf
        exact absurd (hv.symm.trans (of_decide_eq_true hi)) hne
      · obtain ⟨_, _, hx⟩ := node_member h
        rw [hx] at hi
        cases hi
  | member _ h =>
    obtain ⟨_, _, hx⟩ := node_member h
    rw [hx] at hi
    cases hi
  | unary _ h =>
    rw [node_combineUnary h] at hi
    cases hi
  | binary _ _ h =>
    obtain ⟨_, _, hj, _⟩ := joined_combine h
    rw [hj] at hi
    cases hi
  | _ => cases hi

/-! ## Literals -/

theorem findMember_again {e : Element} {member declared : String} {ignoreCase : Bool}
    (h : e.findMember member ignoreCase = some declared) : e.findMember declared ignoreCase = some declared := by
  have hm : declared ∈ e.members := by
    unfold Element.findMember at h
    split at h
    · next hf =>
      cases h
      exact List.mem_of_find?_eq_some hf
    · split at h
      · exact List.mem_of_find?_eq_some h
      · cases h
  have hf : e.members.find? (fun m => m = declared) = some declared := by
    cases hf : e.members.find? fun m => m = declared with
    | none => simpa using List.find?_eq_none.mp hf declared hm
    | some m =>
      have hmd : m = declared := by simpa using List.find?_some hf
      rw [hmd]
  rw [Element.findMember, hf]

theorem enumConstant_again (hv : Visible ctx.schema) {name : String} {e : Element}
    (he : ctx.schema.enumType name = some e) {member : String} {v : Literal}
    (h : enumConstant ctx e member = .ok v) : literal ctx v = .ok ⟨.const v, v.type⟩ := by
  have hvisible := hv e (Schema.mem_of_enumType he).1 (Schema.kind_of_enumType he)
  unfold enumConstant at h
  split at h
  · next declared hm =>
    cases h
    have hc : enumConstant ctx e declared = .ok (.enum e.fullName declared) := by
      rw [enumConstant, findMember_again hm]
    rw [literal, hvisible]
    dsimp only
    rw [hc]
    rfl
  · cases h

theorem literal_again (hv : Visible ctx.schema) {value : Literal} {x : Typed} (h : literal ctx value = .ok x) :
    ∃ v, x = ⟨.const v, v.type⟩ ∧ literal ctx v = .ok x := by
  have h' := h
  unfold literal at h
  split at h
  · split at h
    · cases h
    · next e he =>
      obtain ⟨v, hc, rfl⟩ := map_ok h
      exact ⟨v, rfl, enumConstant_again hv he hc⟩
  · cases h
    exact ⟨value, rfl, h'⟩

/-! ## Operands -/

/-- What an operand is when what it became is bound: the operand itself, or the member of
an enumeration that it was read as. -/
inductive Again (ctx : Context) (x : Typed) : Bound → Typed → Prop
  | same : Again ctx x x.node x
  | convert (target : Primitive) : Again ctx x (.convert x.node target) x
  | member {v : Literal} (h : literal ctx v = .ok ⟨.const v, v.type⟩) : Again ctx x (.const v) ⟨.const v, v.type⟩

/-- A type that is looked up by the name it has. -/
def Known (s : Schema) (type : Option EdmType) : Prop :=
  ∀ t, type = some t → s.Knows t

theorem again_asEnum (hv : Visible ctx.schema) {name operator : String} (hk : ctx.schema.Knows (.enum name)) {x : Typed}
    {b : Bound} (h : asEnum ctx name operator x = .ok b) :
    b = x.node ∨ ∃ declared, b = .const (.enum name declared) ∧
      literal ctx (.enum name declared) = .ok ⟨b, some (.enum name)⟩ := by
  unfold asEnum at h
  split at h
  · split at h
    · next e he =>
      obtain ⟨v, hc, rfl⟩ := map_ok h
      have hagain := enumConstant_again hv he hc
      obtain ⟨declared, rfl⟩ := enumConstant_ok hc
      have hname : e.fullName = name := hk e he
      rw [hname] at hagain ⊢
      exact .inr ⟨declared, rfl, hagain⟩
    · cases h
  · split at h <;> cases h
    exact .inl rfl

theorem asEnum_const (ctx : Context) (name operator declared : String) :
    asEnum ctx name operator ⟨.const (.enum name declared), some (.enum name)⟩ =
      .ok (.const (.enum name declared)) :=
  if_pos (.inr rfl)

theorem again_promote {operator : String} {x y : Typed} {a b : Primitive} {l r : Bound}
    (h : promote operator x y a b = .ok (l, r)) : Again ctx x l x ∧ Again ctx y r y := by
  unfold promote at h
  split at h
  · cases h
    exact ⟨.same, .same⟩
  · split at h
    · split at h <;> cases h
      · exact ⟨.convert b, .same⟩
      · exact ⟨.same, .convert a⟩
    · cases h

theorem again_unify (hv : Visible ctx.schema) {operator : String} {x y : Typed} (hx : Known ctx.schema x.type)
    (hy : Known ctx.schema y.type) {l r : Bound} (h : unify ctx operator x y = .ok (l, r)) :
    ∃ x' y', Again ctx x l x' ∧ Again ctx y r y' ∧ unify ctx operator x' y' = .ok (l, r) := by
  have h' := h
  unfold unify at h
  split at h
  · cases h
    exact ⟨x, y, .same, .same, h'⟩
  · cases h
    exact ⟨x, y, .same, .same, h'⟩
  · next name hxt hyt =>
    obtain ⟨b, hb, heq⟩ := map_ok h
    cases heq
    obtain rfl | ⟨declared, rfl, hagain⟩ := again_asEnum hv (hx _ hxt) hb
    · exact ⟨x, y, .same, .same, h'⟩
    · refine ⟨x, _, .same, .member hagain, ?_⟩
      rw [unify, hxt]
      exact if_pos rfl
  · next name hxt hyt =>
    obtain ⟨b, hb, heq⟩ := map_ok h
    cases heq
    obtain rfl | ⟨declared, rfl, hagain⟩ := again_asEnum hv (hy _ hyt) hb
    · exact ⟨x, y, .same, .same, h'⟩
    · refine ⟨_, y, .member hagain, .same, ?_⟩
      rw [unify, hyt]
      exact if_pos rfl
  · split at h <;> cases h
    exact ⟨x, y, .same, .same, h'⟩
  · obtain ⟨hl, hr⟩ := again_promote h
    exact ⟨x, y, hl, hr, h'⟩
  · cases h

theorem again_arithmetic {op : BinaryOp} {x y z : Typed} (h : arithmetic op x y = .ok z) :
    ∃ l r, z.node = .binary op l r ∧ Again ctx x l x ∧ Again ctx y r y := by
  obtain rfl | ⟨a, b, m, n, -, -, -, -, ⟨-, rfl⟩ | ⟨-, rfl⟩⟩ := arithmetic_ok h
  · exact ⟨_, _, rfl, .same, .same⟩
  · exact ⟨_, _, rfl, .convert b, .same⟩
  · exact ⟨_, _, rfl, .same, .convert a⟩

/-- An operator takes what its operands became for what they were. -/
theorem again_combine (hv : Visible ctx.schema) {op : BinaryOp} {x y z : Typed} (hx : Known ctx.schema x.type)
    (hy : Known ctx.schema y.type) (h : combine ctx op x y = .ok z) :
    ∃ l r x' y', z.node = .binary op l r ∧ Again ctx x l x' ∧ Again ctx y r y' ∧ combine ctx op x' y' = .ok z := by
  have h' := h
  unfold combine at h
  by_cases hlog : op.isLogical = true
  · rw [if_pos hlog] at h
    obtain ⟨_, -, h⟩ := bind_ok h
    obtain ⟨_, -, h⟩ := bind_ok h
    cases h
    exact ⟨_, _, x, y, rfl, .same, .same, h'⟩
  rw [if_neg hlog] at h
  by_cases hhas : op = .has
  · subst hhas
    rw [if_pos rfl] at h
    unfold flagTest at h
    split at h
    · next name hxt =>
      obtain ⟨b, hb, rfl⟩ := map_ok h
      obtain rfl | ⟨declared, rfl, hagain⟩ := again_asEnum hv (hx _ hxt) hb
      · exact ⟨_, _, x, y, rfl, .same, .same, h'⟩
      · refine ⟨_, _, x, _, rfl, .same, .member hagain, ?_⟩
        show flagTest ctx x _ = _
        rw [flagTest, hxt]
        dsimp only
        rw [Literal.type, asEnum_const]
        rfl
    · cases h
  rw [if_neg hhas] at h
  by_cases ha : op.isArithmetic = true
  · rw [if_pos ha] at h
    obtain ⟨l, r, hz, hl, hr⟩ := again_arithmetic h
    exact ⟨l, r, x, y, hz, hl, hr, h'⟩
  · rw [if_neg ha] at h
    obtain ⟨⟨l, r⟩, hu, h⟩ := bind_ok h
    cases h
    obtain ⟨x', y', hl, hr, hu'⟩ := again_unify hv hx hy hu
    refine ⟨l, r, x', y', rfl, hl, hr, ?_⟩
    rw [combine, if_neg hlog, if_neg hhas, if_neg ha, ok_bind hu']
    rfl

theorem again_asItem (hv : Visible ctx.schema) {subject : Option EdmType} (hs : Known ctx.schema subject) {x y : Typed}
    (h : asItem ctx subject x = .ok y) :
    ∃ x' y', Again ctx x y.node x' ∧ asItem ctx subject x' = .ok y' ∧ y'.node = y.node := by
  have h' := h
  unfold asItem at h
  split at h
  · cases h
    exact ⟨_, _, .same, h', rfl⟩
  · cases h
    exact ⟨_, _, .same, h', rfl⟩
  · next name _ _ =>
    obtain ⟨b, hb, rfl⟩ := map_ok h
    obtain rfl | ⟨declared, rfl, hagain⟩ := again_asEnum hv (hs _ rfl) hb
    · exact ⟨_, _, .same, h', rfl⟩
    · -- The item has the type of the enumeration now, not that of a string.
      have hc := congrArg (Except.map fun node => Typed.mk node (some (.enum name)))
        (asEnum_const ctx name "in" declared)
      exact ⟨_, _, .member hagain, hc, rfl⟩
  · split at h
    · cases h
      exact ⟨_, _, .same, h', rfl⟩
    · split at h <;> cases h
      exact ⟨_, _, .convert _, h', rfl⟩
  · cases h

/-! ## Expressions -/

/-- Whether what is written of a bound expression can be written and means it again. -/
structure Reread (ctx : Context) (vars : Scope) (b : Bound) (x : Typed) : Prop where
  orderly : b.written.Orderly
  means : Means ctx vars b.written x

theorem Again.reread {x x' : Typed} {b : Bound} (h : Again ctx x b x') {names : List String}
    (hl : b.legible names = true) (hx : x.node.legible names = true → Reread ctx vars x.node x) :
    Reread ctx vars b x' := by
  cases h with
  | same => exact hx hl
  | convert target =>
    rw [Bound.legible] at hl
    obtain ⟨ho, hm⟩ := hx hl
    exact ⟨ho, hm⟩
  | member h => exact ⟨.literal _, .literal h⟩

theorem reread_each {xs ys : List Typed} (h : List.Forall₂ (fun y x => Reread ctx vars y.node x) ys xs) :
    (∀ w ∈ Bound.writtenEach (ys.map Typed.node), w.Orderly) ∧
      (Bound.writtenEach (ys.map Typed.node)).length = xs.length ∧
      ∀ p ∈ (Bound.writtenEach (ys.map Typed.node)).zip xs, Means ctx vars p.1 p.2 := by
  rw [Bound.writtenEach_eq_map, List.map_map]
  have hf : List.Forall₂ (fun w x => w.Orderly ∧ Means ctx vars w x) (ys.map (Bound.written ∘ Typed.node)) xs :=
    List.forall₂_map_left_iff.mpr (h.imp fun _ _ h => ⟨h.orderly, h.means⟩)
  obtain ⟨hl, hz⟩ := List.forall₂_iff_zip.mp hf
  refine ⟨?_, hl, fun p hp => (hz hp).2⟩
  intro w hw
  rw [← List.map_fst_zip (Nat.le_of_eq hl)] at hw
  obtain ⟨p, hp, rfl⟩ := List.mem_map.mp hw
  exact (hz hp).1

theorem reread_zip {es : List Expr} {xs : List Typed} (hl : es.length = xs.length)
    (h : ∀ p ∈ es.zip xs, Reread ctx vars p.2.node p.2) :
    (∀ w ∈ Bound.writtenEach (xs.map Typed.node), w.Orderly) ∧
      (Bound.writtenEach (xs.map Typed.node)).length = xs.length ∧
      ∀ p ∈ (Bound.writtenEach (xs.map Typed.node)).zip xs, Means ctx vars p.1 p.2 :=
  reread_each (List.forall₂_same.mpr (mem_of_zip hl h))

theorem reread_items (hv : Visible ctx.schema) {subject : Option EdmType} (hs : Known ctx.schema subject)
    {names : List String} {xs ys : List Typed} (h : List.Forall₂ (fun x y => asItem ctx subject x = .ok y) xs ys) :
    (∀ x ∈ xs, x.node.legible names = true → Reread ctx vars x.node x) →
    (∀ y ∈ ys, y.node.legible names = true) →
    ∃ xs' ys', List.Forall₂ (fun y x' => Reread ctx vars y.node x') ys xs' ∧
      List.Forall₂ (fun x' y' => asItem ctx subject x' = .ok y') xs' ys' ∧
      ys'.map Typed.node = ys.map Typed.node := by
  induction h with
  | nil => exact fun _ _ => ⟨[], [], .nil, .nil, rfl⟩
  | cons hi _ ih =>
    intro hx hy
    obtain ⟨hx, hxs⟩ := List.forall_mem_cons.mp hx
    obtain ⟨hy, hys⟩ := List.forall_mem_cons.mp hy
    obtain ⟨x', y', ha, hi', hn⟩ := again_asItem hv hs hi
    obtain ⟨xs', ys', hr, hi'', hn'⟩ := ih hxs hys
    exact ⟨x' :: xs', y' :: ys', .cons (ha.reread hy hx) hr, .cons hi' hi'', by
      rw [List.map_cons, List.map_cons, hn, hn']⟩

theorem signature_again {function : String} {count : Nat} {s : Signature} (h : signature function count = .ok s) :
    signature s.name count = .ok s ∧ Token.IsIdentifier s.name ∧ Grammar.IsName s.name := by
  have hall : ∀ s ∈ Signature.all, Signature.find? s.name = some s ∧ Token.IsIdentifier s.name ∧
      Grammar.IsName s.name := by
    decide +kernel
  obtain ⟨hm, hn⟩ := signature_ok h
  obtain ⟨hf, hi⟩ := hall s hm
  refine ⟨?_, hi⟩
  rw [signature, hf]
  exact if_pos hn

/-- What is written of anything but a list or a literal is neither. -/
theorem items?_written {e : Expr} {x : Typed} (h : Means ctx vars e x) (he : e.items? = none) :
    x.node.written.items? = none := by
  have haccess : ∀ {sort : Access} {owner : Bound} {name : String},
      (Bound.access sort (some owner) name).written.items? = none := by
    intro sort owner name
    rw [Bound.written]
    split <;> rfl
  cases h with
  | literal => cases he
  | list => cases he
  | name h =>
    obtain ⟨_, _, hx⟩ | ⟨_, _, hx⟩ := node_resolve h
    · rw [hx]
      rfl
    · rw [hx]
      exact haccess
  | member _ h =>
    obtain ⟨_, _, hx⟩ := node_member h
    rw [hx]
    exact haccess
  | unary _ h =>
    rw [node_combineUnary h]
    rfl
  | binary _ _ h =>
    obtain ⟨_, _, hj, _⟩ := joined_combine h
    rw [hj]
    rfl
  | among =>
    obtain ⟨_, hw⟩ := Bound.exists_written_within _ _
    rw [truth, hw]
    rfl
  | within =>
    obtain ⟨_, hw⟩ := Bound.exists_written_within _ _
    rw [truth, hw]
    rfl
  | quantifiedEmpty => rfl
  | quantified => rfl
  | call => rfl

theorem orderly_items {e : Expr} {es : List Expr} (h : e.items? = some es) (he : e.Orderly) : ∀ e ∈ es, e.Orderly := by
  cases e with
  | list items =>
    cases h
    cases he with
    | list _ h => exact h
  | literal value =>
    cases h
    exact List.forall_mem_singleton.mpr he
  | _ => cases h

/-- A literal that something is compared with stays one. -/
theorem written_item {subject : Option EdmType} {value : Literal} {xs : List Typed} {y : Typed}
    (hz : ∀ p ∈ [Expr.literal value].zip xs, Means ctx vars p.1 p.2)
    (hy : List.Forall₂ (fun x y => asItem ctx subject x = .ok y) xs [y]) : ∃ v, y.node.written = .literal v := by
  obtain _ | ⟨hy, _ | _⟩ := hy
  cases hz _ List.mem_cons_self with
  | literal h =>
    obtain ⟨v, rfl⟩ := literal_ok h
    have hc := coerced_asItem hy
    generalize y.node = b at hc ⊢
    cases hc with
    | same => exact ⟨v, rfl⟩
    | convert => exact ⟨v, rfl⟩
    | member _ type member => exact ⟨.enum type member, rfl⟩

theorem isPath_written {e : Expr} {x : Typed} (h : Means ctx vars e x) (he : e.isPath = true) :
    x.node.written.isPath = true := by
  have haccess : ∀ {sort : Access} {owner : Bound} {name : String},
      (Bound.access sort (some owner) name).written.isPath = true := by
    intro sort owner name
    rw [Bound.written]
    split <;> rfl
  cases h with
  | name h =>
    obtain ⟨_, _, hx⟩ | ⟨_, _, hx⟩ := node_resolve h
    · rw [hx]
      rfl
    · rw [hx]
      exact haccess
  | member _ h =>
    obtain ⟨_, _, hx⟩ := node_member h
    rw [hx]
    exact haccess
  | quantifiedEmpty => rfl
  | quantified => rfl
  | _ => cases he

theorem reread_member {owner : Expr} {name : String} {x y : Typed} (hp : owner.isPath = true)
    (hn : Token.IsIdentifier name) (ho : Means ctx vars owner x) (h : member ctx x name = .ok y)
    (hl : y.node.legible (vars.map Prod.fst) = true)
    (ih : x.node.legible (vars.map Prod.fst) = true → Reread ctx vars x.node x) : Reread ctx vars y.node y := by
  by_cases hi : x.node.isInstance = true
  · -- The instance is not written, so the property is reached as one from the name alone.
    obtain rfl := filtered_of_means ho hi
    obtain ⟨root, hw, hor, hr⟩ := root_again hn h hl
    exact ⟨hw ▸ hor, hw ▸ .name hr⟩
  · obtain ⟨sort, declared, hy, hsame, hagain⟩ := member_again h
    have hw : y.node.written = .member x.node.written declared := by rw [hy, Bound.written, if_neg hi]
    rw [hy, Bound.legible] at hl
    simp only [Bool.and_eq_true, decide_eq_true_eq] at hl
    obtain ⟨⟨⟨hlo, hinf⟩, hnan⟩, -⟩ := hl
    obtain ⟨ho', hm⟩ := ih hlo
    have hdeclared := hn.of_sameName hsame ⟨hinf, hnan⟩
    exact ⟨hw ▸ .member (isPath_written ho hp) ho' hdeclared, hw ▸ .member hm hagain⟩

theorem reread_among {candidates : Expr} {x : Typed} {es : List Expr} {xs ys xs' ys' : List Typed}
    (hx : Reread ctx vars x.node x) (hsingle : requireSingle x = .ok ()) (hec : candidates.Orderly)
    (hc : candidates.items? = some es) (hlen : es.length = xs.length)
    (hz : ∀ p ∈ es.zip xs, Means ctx vars p.1 p.2)
    (hy : List.Forall₂ (fun x' y => asItem ctx x.type x' = .ok y) xs ys)
    (hr : List.Forall₂ (fun y x' => Reread ctx vars y.node x') ys xs')
    (hy' : List.Forall₂ (fun x' y => asItem ctx x.type x' = .ok y) xs' ys')
    (hnode : ys'.map Typed.node = ys.map Typed.node) :
    Reread ctx vars (.within x.node (.list (ys.map Typed.node))) (truth (.within x.node (.list (ys.map Typed.node)))) := by
  obtain ⟨ho, hlen', hz'⟩ := reread_each hr
  have hm : ∀ c, c.items? = some (Bound.writtenEach (ys.map Typed.node)) →
      Means ctx vars (.within x.node.written c) (truth (.within x.node (.list (ys.map Typed.node)))) := by
    intro c hc
    rw [← hnode]
    exact .among hx.means hsingle hc hlen' hz' hy'
  have hlen := hlen.trans hy.length_eq
  cases candidates with
  | list items =>
    cases hc
    cases hec with
    | list hn _ =>
      -- The parser makes no list of one item.
      have hw : (Bound.within x.node (.list (ys.map Typed.node))).written =
          .within x.node.written (.list (Bound.writtenEach (ys.map Typed.node))) := by
        refine Bound.written_within fun b hb => ?_
        have hb := congrArg List.length (Bound.list.inj hb)
        rw [List.length_map, ← hlen, List.length_singleton] at hb
        omega
      have hor : (Expr.list (Bound.writtenEach (ys.map Typed.node))).Orderly := by
        refine .list ?_ ho
        rw [Bound.writtenEach_eq_map, List.length_map, List.length_map]
        omega
      exact ⟨hw ▸ .within hx.orderly hor, hw ▸ hm _ rfl⟩
  | literal value =>
    -- A literal that stands for a list is in parentheses now, but is still that literal.
    cases hc
    obtain ⟨y, rfl⟩ := List.length_eq_one_iff.mp hlen.symm
    obtain ⟨v, hv⟩ := written_item hz hy
    have hor : y.node.written.Orderly := by
      rw [hv]
      exact .literal v
    have hc : y.node.written.items? = some (Bound.writtenEach [y.node]) := by
      rw [Bound.writtenEach, Bound.writtenEach, hv]
      rfl
    exact ⟨.within hx.orderly hor, hm _ hc⟩
  | _ => cases hc

theorem known_of_means (hs : Settled ctx) (hvars : ∀ v ∈ vars, ctx.schema.Knows v.2) {e : Expr} {x : Typed}
    (h : Means ctx vars e x) : Known ctx.schema x.type :=
  (sound_meaning hs _ hvars (meaning_of_means h)).known

/-- What is written of a bound expression means it again, if its text says what it does. -/
theorem reread_of_means (hs : Settled ctx) (hv : Visible ctx.schema) {e : Expr} {x : Typed}
    (h : Means ctx vars e x) (he : e.Orderly) (hvars : ∀ v ∈ vars, ctx.schema.Knows v.2)
    (hl : x.node.legible (vars.map Prod.fst) = true) : Reread ctx vars x.node x := by
  -- On the rules that gave the expression. What an operator made of its operands needs a rule
  -- of its own only where a string became a member of an enumeration.
  induction h with
  | literal h =>
    obtain ⟨v, rfl, hagain⟩ := literal_again hv h
    exact ⟨.literal v, .literal hagain⟩
  | @list vars es xs hlen hz ih =>
    rw [list, Bound.legible, Bound.legibleEach_iff] at hl
    cases he with
    | list hn he =>
      obtain ⟨ho, hlen', hz'⟩ := reread_zip hlen fun p hp =>
        ih p hp (he _ (List.of_mem_zip hp).1) hvars (hl _ (List.mem_map_of_mem (List.of_mem_zip hp).2))
      exact ⟨.list (by omega) ho, .list hlen' hz'⟩
  | name h =>
    obtain ⟨root, hw, ho, hr⟩ := resolve_again he h hl
    exact ⟨hw ▸ ho, hw ▸ .name hr⟩
  | member ho h ih =>
    cases he with
    | member hp heo hn => exact reread_member hp hn ho h hl (ih heo hvars)
  | quantifiedEmpty quantifier ho hi ih =>
    rw [truth, Bound.legible, Bool.and_eq_true] at hl
    cases he with
    | quantifiedEmpty hp hes =>
      obtain ⟨ho', hm⟩ := ih hes hvars hl.1
      exact ⟨.quantifiedEmpty (isPath_written ho hp) ho', .quantifiedEmpty quantifier hm hi⟩
  | quantified quantifier v ho hi _ hy ihs ihb =>
    rw [truth, Bound.legible, Bool.and_eq_true] at hl
    cases he with
    | quantified hp hes hv' heb =>
      obtain ⟨hos, hms⟩ := ihs hes hvars hl.1
      have hitem := known_of_means hs hvars ho _ (itemType_ok hi)
      obtain ⟨hob, hmb⟩ := ihb heb (List.forall_mem_cons.mpr ⟨hitem, hvars⟩) hl.2
      exact ⟨.quantified (isPath_written ho hp) hos hv' hob, .quantified quantifier v hms hi hmb hy⟩
  | call hf hlen hz ha ih =>
    rw [call, Bound.legible, Bound.legibleEach_iff] at hl
    cases he with
    | call _ _ he =>
      obtain ⟨ho, hlen', hz'⟩ := reread_zip hlen fun p hp =>
        ih p hp (he _ (List.of_mem_zip hp).1) hvars (hl _ (List.mem_map_of_mem (List.of_mem_zip hp).2))
      obtain ⟨hf, hn, hw⟩ := signature_again hf
      exact ⟨.call hn hw ho, .call (by rw [hlen', ← hlen, hf]) hlen' hz' ha⟩
  | @unary vars op operand x y ho h ih =>
    have hnode := node_combineUnary h
    have hlo : x.node.legible (vars.map Prod.fst) = true := by
      rw [hnode] at hl
      cases op <;> rw [Bound.legible, Bool.and_eq_true] at hl <;> exact hl.1
    cases he with
    | unary heo =>
      obtain ⟨ho', hm⟩ := ih heo hvars hlo
      rw [hnode]
      exact ⟨.unary ho', .unary hm h⟩
  | binary hx hy h ihx ihy =>
    obtain ⟨l, r, x', y', hz, hal, har, hagain⟩ :=
      again_combine hv (known_of_means hs hvars hx) (known_of_means hs hvars hy) h
    rw [hz] at hl ⊢
    simp only [Bound.legible, Bool.and_eq_true] at hl
    obtain ⟨⟨⟨hll, hlr⟩, -⟩, -⟩ := hl
    cases he with
    | binary hel her =>
      obtain ⟨hol, hml⟩ := hal.reread hll (ihx hel hvars)
      obtain ⟨hor, hmr⟩ := har.reread hlr (ihy her hvars)
      exact ⟨.binary hol hor, .binary hml hmr hagain⟩
  | @among vars item candidates x es xs ys hx hsingle hc hlen hz hy ihx ih =>
    rw [truth, Bound.legible] at hl
    simp only [Bool.and_eq_true, Bound.legible, Bound.legibleEach_iff] at hl
    obtain ⟨⟨⟨hlx, hly⟩, -⟩, -⟩ := hl
    cases he with
    | within hei hec =>
      have hes := orderly_items hc hec
      have hxs := mem_of_zip (P := fun x => x.node.legible (vars.map Prod.fst) = true → Reread ctx vars x.node x) hlen
        fun p hp => ih p hp (hes _ (List.of_mem_zip hp).1) hvars
      obtain ⟨xs', ys', hr, hy', hnode⟩ :=
        reread_items hv (known_of_means hs hvars hx) hy hxs (List.forall_mem_map.mp hly)
      exact reread_among (ihx hei hvars hlx) hsingle hec hc hlen hz hy hr hy' hnode
  | @within vars item candidates x y hx hsingle hn hc hy ihx ihc =>
    rw [truth, Bound.legible] at hl
    simp only [Bool.and_eq_true] at hl
    obtain ⟨⟨⟨hlx, hlc⟩, -⟩, -⟩ := hl
    have hw : (Bound.within x.node y.node).written = .within x.node.written y.node.written :=
      Bound.written_within fun b => (node_of_means hc).2 hn [b]
    cases he with
    | within hei hec =>
      obtain ⟨hox, hmx⟩ := ihx hei hvars hlx
      obtain ⟨hoc, hmc⟩ := ihc hec hvars hlc
      have hm : Means ctx vars (.within x.node.written y.node.written) (truth (.within x.node y.node)) :=
        .within hmx hsingle (items?_written hc hn) hmc hy
      exact ⟨hw ▸ .within hox hoc, hw ▸ hm⟩

end Binding

end FilterGuard
