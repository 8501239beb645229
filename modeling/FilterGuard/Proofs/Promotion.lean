import FilterGuard.Filter
import FilterGuard.Proofs.BindingRules
import FilterGuard.Proofs.Typing

/-!
# Conversions that binding puts in

Operators convert the operand of lower rank. An item of a list is converted to the
kind of what is looked for, whichever of the two has the lower rank, so only there a
number can lose something.
-/

namespace FilterGuard

/-- A conversion in a bound expression, and what is looked for in the list that the
source is an item of. -/
structure Conversion where
  source : Bound
  target : Primitive
  subject : Option Bound

namespace Conversion

/-- Whether a conversion goes from a numeric kind to one, of these ranks. -/
def Between (s : Schema) (c : Conversion) (m n : Nat) : Prop :=
  ∃ k, c.source.type? s = some (.primitive k) ∧ k.rank = some m ∧ c.target.rank = some n

def Promotes (s : Schema) (c : Conversion) : Prop :=
  ∃ m n, c.Between s m n ∧ m < n

def Narrows (s : Schema) (c : Conversion) : Prop :=
  ∃ m n, c.Between s m n ∧ n < m

/-- Whether a conversion promotes, or makes an item a number of the kind looked for. -/
def Sanctioned (s : Schema) (c : Conversion) : Prop :=
  match c.subject with
  | none => c.Promotes s
  | some subject => subject.type? s = some (.primitive c.target) ∧ (c.Promotes s ∨ c.Narrows s)

end Conversion

namespace Bound

mutual

/-- The conversions in an expression. -/
def conversions : Bound → List Conversion
  | const _ | var _ _ | access _ none _ => []
  | convert source target => ⟨source, target, none⟩ :: source.conversions
  | unary _ operand => operand.conversions
  | binary _ left right => left.conversions ++ right.conversions
  | call _ args => conversionsEach args
  | within item (list items) => item.conversions ++ conversionsOf item items
  | within item candidates => item.conversions ++ candidates.conversions
  | quantified _ source _ body => source.conversions ++ body.conversions
  | access _ (some owner) _ => owner.conversions
  | list items => conversionsEach items

def conversionsEach : List Bound → List Conversion
  | [] => []
  | b :: bs => b.conversions ++ conversionsEach bs

/-- The conversions in the items of a list that `subject` is looked for in. -/
def conversionsOf (subject : Bound) : List Bound → List Conversion
  | [] => []
  | convert source target :: bs =>
    ⟨source, target, some subject⟩ :: (source.conversions ++ conversionsOf subject bs)
  | b :: bs => b.conversions ++ conversionsOf subject bs

end

def Sanctioned (s : Schema) (b : Bound) : Prop :=
  ∀ c ∈ b.conversions, c.Sanctioned s

end Bound

namespace Binding

variable {s : Schema} {ctx : Context} {vars : Scope}

/-! ## Types -/

theorem type?_member {owner x : Typed} {name : String} (h : member ctx owner name = .ok x)
    (ho : owner.node.type? ctx.schema = owner.type) : x.node.type? ctx.schema = x.type := by
  unfold member at h
  split at h
  · next ht => exact type?_property h (.inl (ho.trans ht))
  · next ht => exact type?_property h (.inr (ho.trans ht))
  · cases h

theorem type?_resolve {name : String} {x : Typed} (h : resolve ctx vars name = .ok x) :
    x.node.type? ctx.schema = x.type := by
  unfold resolve at h
  split at h
  · cases h
    rfl
  · split at h
    · cases h
      rfl
    · exact type?_member h rfl

theorem type?_call {f : Signature} {count : Nat} {function : String} (hf : signature function count = .ok f)
    {xs : List Typed} (h : ∀ x ∈ xs, x.node.type? s = x.type) : (call f xs).node.type? s = (call f xs).type := by
  rw [call, Bound.type?, headType?_map h]
  exact type?_name (signature_ok hf).1 _

theorem arithmetic_of_rank {k : Primitive} {n : Nat} (hk : k.rank = some n) (t : EdmType) :
    EdmType.arithmetic (some (.primitive k)) (some t) = some (.primitive k) := by
  have hne : k ≠ .dateTimeOffset := by
    rintro rfl
    cases hk
  unfold EdmType.arithmetic
  split <;> simp_all

/-- The sides of an arithmetic operator are left alone, or one of them is promoted. -/
theorem arithmetic_ok {op : BinaryOp} {left right x : Typed} (h : arithmetic op left right = .ok x) :
    x = ⟨.binary op left.node right.node, EdmType.arithmetic left.type right.type⟩ ∨
    ∃ a b m n, left.type = some (.primitive a) ∧ right.type = some (.primitive b) ∧
      a.rank = some m ∧ b.rank = some n ∧
      (m < n ∧ x = ⟨.binary op (.convert left.node b) right.node, some (.primitive b)⟩ ∨
        n < m ∧ x = ⟨.binary op left.node (.convert right.node a), some (.primitive a)⟩) := by
  unfold arithmetic at h
  dsimp only at h
  split at h
  · next hlt hrt =>
    cases h
    rw [hlt, hrt]
    exact .inl rfl
  · next t hlt hrt =>
    split at h <;> cases h
    rw [hlt, hrt]
    exact .inl rfl
  · next t hlt hrt =>
    split at h <;> cases h
    rw [hlt, hrt]
    exact .inl rfl
  · next a b hlt hrt =>
    split at h
    · next m n hm hn =>
      by_cases hmn : m < n
      · rw [if_pos hmn] at h
        cases h
        exact .inr ⟨a, b, m, n, hlt, hrt, hm, hn, .inl ⟨hmn, rfl⟩⟩
      · rw [if_neg hmn] at h
        by_cases hnm : n < m
        · rw [if_pos hnm] at h
          cases h
          exact .inr ⟨a, b, m, n, hlt, hrt, hm, hn, .inr ⟨hnm, rfl⟩⟩
        · rw [if_neg hnm] at h
          cases h
          rw [hlt, hrt, arithmetic_of_rank hm]
          exact .inl rfl
    · split at h <;> cases h
      next k hk =>
      rw [hlt, hrt, (calculable_of_timeResult hk).2]
      exact .inl rfl
  · cases h

/-! ## Operands -/

/-- What binding gives: a node of the type that it says, and conversions as they should be. -/
structure Promoted (s : Schema) (x : Typed) : Prop where
  type : x.node.type? s = x.type
  node : x.node.Sanctioned s

theorem sanctioned_convert {source : Bound} {target k : Primitive} {m n : Nat} (h : source.Sanctioned s)
    (ht : source.type? s = some (.primitive k)) (hm : k.rank = some m) (hn : target.rank = some n) (hmn : m < n) :
    (Bound.convert source target).Sanctioned s := by
  rw [Bound.Sanctioned, Bound.conversions]
  exact List.forall_mem_cons.mpr ⟨⟨m, n, ⟨k, ht, hm, hn⟩, hmn⟩, h⟩

theorem asEnum_ok {name operator : String} {x : Typed} {b : Bound} (h : asEnum ctx name operator x = .ok b) :
    b = x.node ∨ ∃ v, b = .const v := by
  unfold asEnum at h
  split at h
  · split at h
    · obtain ⟨v, -, rfl⟩ := map_ok h
      exact .inr ⟨v, rfl⟩
    · cases h
  · split at h <;> cases h
    exact .inl rfl

theorem sanctioned_of_nil {b : Bound} (h : b.conversions = []) : b.Sanctioned s := by
  intro c hc
  rw [h] at hc
  cases hc

theorem sanctioned_const (v : Literal) : (Bound.const v).Sanctioned s :=
  sanctioned_of_nil (by rw [Bound.conversions])

theorem sanctioned_asEnum {name operator : String} {x : Typed} {b : Bound} (h : asEnum ctx name operator x = .ok b)
    (hx : x.node.Sanctioned s) : b.Sanctioned s := by
  obtain rfl | ⟨v, rfl⟩ := asEnum_ok h
  · exact hx
  · exact sanctioned_const v

theorem sanctioned_promote {operator : String} {left right : Typed} {a b : Primitive} {l r : Bound}
    (h : promote operator left right a b = .ok (l, r)) (hl : Promoted s left) (hr : Promoted s right)
    (hlt : left.type = some (.primitive a)) (hrt : right.type = some (.primitive b)) :
    l.Sanctioned s ∧ r.Sanctioned s := by
  unfold promote at h
  by_cases hab : a = b
  · rw [if_pos hab] at h
    cases h
    exact ⟨hl.node, hr.node⟩
  · rw [if_neg hab] at h
    split at h
    · next m n hm hn =>
      by_cases hmn : m < n
      · rw [if_pos hmn] at h
        cases h
        exact ⟨sanctioned_convert hl.node (hl.type.trans hlt) hm hn hmn, hr.node⟩
      · -- Different kinds have different ranks.
        have hne : m ≠ n := fun he => hab (eq_of_rank hm (he ▸ hn))
        rw [if_neg hmn] at h
        cases h
        exact ⟨hl.node, sanctioned_convert hr.node (hr.type.trans hrt) hn hm (by omega)⟩
    · cases h

theorem sanctioned_unify {operator : String} {left right : Typed} {l r : Bound}
    (h : unify ctx operator left right = .ok (l, r)) (hl : Promoted s left) (hr : Promoted s right) :
    l.Sanctioned s ∧ r.Sanctioned s := by
  unfold unify at h
  split at h
  · cases h
    exact ⟨hl.node, hr.node⟩
  · cases h
    exact ⟨hl.node, hr.node⟩
  · obtain ⟨r', hr', heq⟩ := map_ok h
    cases heq
    exact ⟨hl.node, sanctioned_asEnum hr' hr.node⟩
  · obtain ⟨l', hl', heq⟩ := map_ok h
    cases heq
    exact ⟨sanctioned_asEnum hl' hl.node, hr.node⟩
  · split at h <;> cases h
    exact ⟨hl.node, hr.node⟩
  · next hlt hrt => exact sanctioned_promote h hl hr hlt hrt
  · cases h

/-! ## Operators -/

theorem sanctioned_binary {op : BinaryOp} {l r : Bound} (hl : l.Sanctioned s) (hr : r.Sanctioned s) :
    (Bound.binary op l r).Sanctioned s := by
  rw [Bound.Sanctioned, Bound.conversions]
  exact List.forall_mem_append.mpr ⟨hl, hr⟩

theorem promoted_arithmetic {op : BinaryOp} (hop : op.isArithmetic = true) {left right x : Typed}
    (h : arithmetic op left right = .ok x) (hl : Promoted s left) (hr : Promoted s right) : Promoted s x := by
  obtain rfl | ⟨a, b, m, n, hlt, hrt, hm, hn, ⟨hmn, rfl⟩ | ⟨hnm, rfl⟩⟩ := arithmetic_ok h
  · exact ⟨by rw [Bound.type?, if_pos hop, hl.type, hr.type], sanctioned_binary hl.node hr.node⟩
  · refine ⟨?_, sanctioned_binary (sanctioned_convert hl.node (hl.type.trans hlt) hm hn hmn) hr.node⟩
    rw [Bound.type?, if_pos hop, Bound.type?, hr.type, hrt, arithmetic_of_rank hn]
  · refine ⟨?_, sanctioned_binary hl.node (sanctioned_convert hr.node (hr.type.trans hrt) hn hm hnm)⟩
    rw [Bound.type?, if_pos hop, Bound.type?, hl.type, hlt, arithmetic_of_rank hm]

theorem promoted_combine {op : BinaryOp} {left right x : Typed} (h : combine ctx op left right = .ok x)
    (hl : Promoted s left) (hr : Promoted s right) : Promoted s x := by
  have htruth : op.isArithmetic = false → ∀ l r : Bound, l.Sanctioned s → r.Sanctioned s →
      Promoted s (truth (.binary op l r)) := fun ha l r hl hr =>
    ⟨by rw [truth, Bound.type?, if_neg (by simp [ha])], sanctioned_binary hl hr⟩
  unfold combine at h
  by_cases hlog : op.isLogical = true
  · have ha : op.isArithmetic = false := by cases op <;> first | rfl | cases hlog
    rw [if_pos hlog] at h
    obtain ⟨_, -, h⟩ := bind_ok h
    obtain ⟨_, -, h⟩ := bind_ok h
    cases h
    exact htruth ha _ _ hl.node hr.node
  · rw [if_neg hlog] at h
    by_cases hhas : op = .has
    · rw [if_pos hhas, flagTest] at h
      subst hhas
      split at h
      · obtain ⟨r, hr', rfl⟩ := map_ok h
        exact htruth rfl _ _ hl.node (sanctioned_asEnum hr' hr.node)
      · cases h
    · rw [if_neg hhas] at h
      by_cases ha : op.isArithmetic = true
      · rw [if_pos ha] at h
        exact promoted_arithmetic ha h hl hr
      · rw [if_neg ha] at h
        obtain ⟨⟨l, r⟩, hu, h⟩ := bind_ok h
        cases h
        obtain ⟨hl, hr⟩ := sanctioned_unify hu hl hr
        exact htruth (Bool.eq_false_iff.mpr ha) _ _ hl hr

theorem promoted_combineUnary {op : UnaryOp} {x y : Typed} (h : combineUnary op x = .ok y) (hx : Promoted s x) :
    Promoted s y := by
  cases op with
  | not =>
    obtain ⟨_, -, h⟩ := bind_ok h
    cases h
    exact ⟨rfl, by rw [Bound.Sanctioned, truth, Bound.conversions]; exact hx.node⟩
  | negate =>
    rw [combineUnary] at h
    split at h <;> cases h
    exact ⟨hx.type, by rw [Bound.Sanctioned, Bound.conversions]; exact hx.node⟩

/-! ## Items -/

theorem conversionsOf_cons (subject b : Bound) (bs : List Bound) :
    Bound.conversionsOf subject (b :: bs) = Bound.conversionsOf subject [b] ++ Bound.conversionsOf subject bs := by
  cases b <;> simp only [Bound.conversionsOf, List.cons_append, List.append_nil]

theorem conversionsOf_plain (subject : Bound) {b : Bound} (h : ∀ source target, b ≠ .convert source target) :
    Bound.conversionsOf subject [b] = b.conversions := by
  cases b with
  | convert source target => exact absurd rfl (h source target)
  | _ => simp only [Bound.conversionsOf, List.append_nil]

theorem sanctioned_asItem {subject x y : Typed} (h : asItem ctx subject.type x = .ok y) (hs : Promoted s subject)
    (hx : Promoted s x) (hp : ∀ source target, x.node ≠ .convert source target) :
    ∀ c ∈ Bound.conversionsOf subject.node [y.node], c.Sanctioned s := by
  have hsame : ∀ c ∈ Bound.conversionsOf subject.node [x.node], c.Sanctioned s := by
    rw [conversionsOf_plain _ hp]
    exact hx.node
  unfold asItem at h
  split at h
  · cases h
    exact hsame
  · cases h
    exact hsame
  · obtain ⟨b, hb, rfl⟩ := map_ok h
    obtain rfl | ⟨v, rfl⟩ := asEnum_ok hb
    · exact hsame
    · rw [conversionsOf_plain (b := .const v) _ fun _ _ => nofun]
      exact sanctioned_const v
  · next a b hst hxt =>
    split at h
    · cases h
      exact hsame
    · next hab =>
      split at h <;> cases h
      next hn =>
      obtain ⟨ha, hb⟩ := Bool.and_eq_true_iff.mp hn
      obtain ⟨n, hn⟩ := Option.isSome_iff_exists.mp ha
      obtain ⟨m, hm⟩ := Option.isSome_iff_exists.mp hb
      have hne : m ≠ n := fun he => hab (eq_of_rank hn (he ▸ hm))
      rw [Bound.conversionsOf, Bound.conversionsOf, List.append_nil]
      refine List.forall_mem_cons.mpr ⟨⟨hs.type.trans hst, ?_⟩, hx.node⟩
      have hbetween : Conversion.Between s ⟨x.node, a, some subject.node⟩ m n := ⟨b, hx.type.trans hxt, hm, hn⟩
      obtain hlt | hgt := Nat.lt_or_gt_of_ne hne
      · exact .inl ⟨m, n, hbetween, hlt⟩
      · exact .inr ⟨m, n, hbetween, hgt⟩
  · cases h

theorem sanctioned_items {subject : Typed} (hs : Promoted s subject) {xs ys : List Typed}
    (hx : ∀ x ∈ xs, Promoted s x ∧ ∀ source target, x.node ≠ .convert source target)
    (h : List.Forall₂ (fun x y => asItem ctx subject.type x = .ok y) xs ys) :
    ∀ c ∈ Bound.conversionsOf subject.node (ys.map Typed.node), c.Sanctioned s := by
  induction h with
  | nil =>
    rw [List.map_nil, Bound.conversionsOf]
    nofun
  | cons hxy _ ih =>
    obtain ⟨⟨hx, hp⟩, hxs⟩ := List.forall_mem_cons.mp hx
    rw [List.map_cons, conversionsOf_cons]
    exact List.forall_mem_append.mpr ⟨sanctioned_asItem hxy hs hx hp, ih hxs⟩

/-! ## Expressions -/

theorem mem_of_zip {α β : Type} {P : β → Prop} {as : List α} {bs : List β} (hl : as.length = bs.length)
    (h : ∀ p ∈ as.zip bs, P p.2) : ∀ b ∈ bs, P b := by
  intro b hb
  rw [← List.map_snd_zip (Nat.le_of_eq hl.symm)] at hb
  obtain ⟨p, hp, rfl⟩ := List.mem_map.mp hb
  exact h p hp

theorem sanctioned_each {xs : List Typed} (h : ∀ x ∈ xs, Promoted s x) :
    ∀ c ∈ Bound.conversionsEach (xs.map Typed.node), c.Sanctioned s := by
  induction xs with
  | nil =>
    rw [List.map_nil, Bound.conversionsEach]
    nofun
  | cons x xs ih =>
    obtain ⟨hx, hxs⟩ := List.forall_mem_cons.mp h
    rw [List.map_cons, Bound.conversionsEach]
    exact List.forall_mem_append.mpr ⟨hx.node, ih hxs⟩

theorem promoted_of_means {e : Expr} {x : Typed} (h : Means ctx vars e x) : Promoted ctx.schema x := by
  induction h with
  | literal h =>
    obtain ⟨v, rfl⟩ := literal_ok h
    exact ⟨rfl, sanctioned_const v⟩
  | list hl _ ih =>
    have hx := mem_of_zip hl ih
    refine ⟨?_, ?_⟩
    · rw [list, Bound.type?, itemType?_map fun x h => (hx x h).type]
    · rw [Bound.Sanctioned, list, Bound.conversions]
      exact sanctioned_each hx
  | name h =>
    refine ⟨type?_resolve h, ?_⟩
    obtain ⟨_, _, hv⟩ | ⟨_, _, hv⟩ := node_resolve h
    · exact sanctioned_of_nil (by rw [hv, Bound.conversions])
    · exact sanctioned_of_nil (by rw [hv, Bound.conversions, filtered, Bound.conversions])
  | member _ h ih =>
    obtain ⟨_, _, hm⟩ := node_member h
    refine ⟨type?_member h ih.type, ?_⟩
    rw [Bound.Sanctioned, hm, Bound.conversions]
    exact ih.node
  | quantifiedEmpty _ _ _ ih =>
    refine ⟨rfl, ?_⟩
    rw [Bound.Sanctioned, truth, Bound.conversions, Bound.conversions, List.append_nil]
    exact ih.node
  | quantified _ _ _ _ _ _ ihs ihb =>
    refine ⟨rfl, ?_⟩
    rw [Bound.Sanctioned, truth, Bound.conversions]
    exact List.forall_mem_append.mpr ⟨ihs.node, ihb.node⟩
  | call hs hl _ _ ih =>
    have hx := mem_of_zip hl ih
    refine ⟨type?_call hs fun x h => (hx x h).type, ?_⟩
    rw [Bound.Sanctioned, call, Bound.conversions]
    exact sanctioned_each hx
  | unary _ h ih => exact promoted_combineUnary h ih
  | binary _ _ h ihl ihr => exact promoted_combine h ihl ihr
  | among _ _ _ hl hz hy ihi ih =>
    refine ⟨rfl, ?_⟩
    rw [Bound.Sanctioned, truth, Bound.conversions]
    have hp := mem_of_zip (P := fun x => ∀ source target, x.node ≠ .convert source target) hl fun p hp =>
      (node_of_means (hz p hp)).1
    have hx := mem_of_zip hl ih
    exact List.forall_mem_append.mpr ⟨ihi.node, sanctioned_items ihi (fun x h => ⟨hx x h, hp x h⟩) hy⟩
  | @within vars item candidates x y _ _ hn hc _ ihi ihc =>
    refine ⟨rfl, ?_⟩
    have hb : (Bound.within x.node y.node).conversions = x.node.conversions ++ y.node.conversions := by
      have hy := (node_of_means hc).2 hn
      cases hc : y.node with
      | list items => exact absurd hc (hy items)
      | _ => rw [Bound.conversions.eq_def]
    rw [Bound.Sanctioned, truth, hb]
    exact List.forall_mem_append.mpr ⟨ihi.node, ihc.node⟩

end Binding

/-- A conversion promotes a number to a kind of higher rank, unless it stands around an
item of a list. Then it goes to the type of what is looked for, from any other numeric
kind. -/
theorem conversions_of_bindText {filter : String} {schema : Schema} {type : Element} {options : Options} {b : Bound}
    (h : bindText filter schema type options = .ok b) :
    (∀ c ∈ b.conversions, c.subject = none → c.Promotes schema) ∧
    ∀ c ∈ b.conversions, ∀ subject, c.subject = some subject →
      subject.type? schema = some (.primitive c.target) ∧ (c.Promotes schema ∨ c.Narrows schema) := by
  obtain ⟨e, -, hb⟩ := bind_ok h
  obtain ⟨x, hx, -, rfl⟩ := Binding.meaning_of_bind hb
  have hs := (Binding.promoted_of_means (Binding.meaning_ok_iff.mp hx)).node
  refine ⟨fun c hc hn => ?_, fun c hc subject hs' => ?_⟩
  · have h := hs c hc
    rwa [Conversion.Sanctioned, hn] at h
  · have h := hs c hc
    rwa [Conversion.Sanctioned, hs'] at h

/-- A number beside one of a higher rank, and items of a lower and of a higher rank. -/
theorem conversions_of_bindText_orders :
    ∃ b, bindText "total gt id and lines/any(l: l/price in (1, 2.5, total))" orders order {} = .ok b ∧
      (b.conversions.map fun c => (c.source.type? orders, c.target, c.subject.isSome)) =
        [(some (.primitive .int32), .double, false), (some (.primitive .int32), .decimal, true),
          (some (.primitive .double), .decimal, true)] ∧
      (∀ c ∈ b.conversions, c.subject = none → c.Promotes orders) ∧
      ∀ c ∈ b.conversions, ∀ subject, c.subject = some subject →
        subject.type? orders = some (.primitive c.target) ∧ (c.Promotes orders ∨ c.Narrows orders) := by
  have h : (bindText "total gt id and lines/any(l: l/price in (1, 2.5, total))" orders order {}).toOption.any (fun b =>
      (b.conversions.map fun c => (c.source.type? orders, c.target, c.subject.isSome)) ==
        [(some (.primitive .int32), .double, false), (some (.primitive .int32), .decimal, true),
          (some (.primitive .double), .decimal, true)]) = true := by
    decide +kernel
  obtain ⟨b, hb, hc⟩ := exists_of_any h
  exact ⟨b, hb, eq_of_beq hc, conversions_of_bindText hb⟩

/-- An item with a fraction is made an integer. -/
theorem conversions_narrowing :
    ∃ b, bindText "id in (1.5, 2)" orders order {} = .ok b ∧
      ∃ c ∈ b.conversions, c.Narrows orders ∧ ¬c.Promotes orders := by
  have h : (bindText "id in (1.5, 2)" orders order {}).toOption.any (fun b =>
      b.conversions.any fun c => c.source.type? orders == some (.primitive .decimal) && c.target == .int32) = true := by
    decide +kernel
  obtain ⟨b, hb, hc⟩ := exists_of_any h
  obtain ⟨c, hm, hc⟩ := List.any_eq_true.mp hc
  obtain ⟨hs, ht⟩ := Bool.and_eq_true_iff.mp hc
  have hs := eq_of_beq hs
  have ht : c.target.rank = some 2 := by rw [eq_of_beq ht]; rfl
  refine ⟨b, hb, c, hm, ⟨4, 2, ⟨.decimal, hs, rfl, ht⟩, by decide⟩, ?_⟩
  rintro ⟨m, n, ⟨k, hk, hm, hn⟩, hlt⟩
  cases hs.symm.trans hk
  cases hm
  cases ht.symm.trans hn
  omega

end FilterGuard
