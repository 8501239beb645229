import FilterGuard.Proofs.Inventory
import FilterGuard.Proofs.Steps
import Mathlib.Logic.Relation

/-!
# Trees and conversions

A conversion has no node and no text. It is looked through wherever an expression is
looked at: on an operand, on the owner of a property, on a collection, on the left side
of a chain. So the tree of an expression, and whether there is one, does not tell how
many conversions there are or where they are.
-/

namespace FilterGuard

namespace Bound

/-- One conversion put in, anywhere in an expression. -/
inductive Wrapped : Bound → Bound → Prop
  | here (b : Bound) (target : Primitive) : Wrapped b (convert b target)
  | convert {source source'} (target : Primitive) (h : Wrapped source source') :
      Wrapped (convert source target) (convert source' target)
  | unary {operand operand'} (op : UnaryOp) (h : Wrapped operand operand') :
      Wrapped (unary op operand) (unary op operand')
  | left {left left'} (op : BinaryOp) (right : Bound) (h : Wrapped left left') :
      Wrapped (binary op left right) (binary op left' right)
  | right {right right'} (op : BinaryOp) (left : Bound) (h : Wrapped right right') :
      Wrapped (binary op left right) (binary op left right')
  | call {b b'} (function : String) (front back : List Bound) (h : Wrapped b b') :
      Wrapped (call function (front ++ b :: back)) (call function (front ++ b' :: back))
  | item {item item'} (candidates : Bound) (h : Wrapped item item') :
      Wrapped (within item candidates) (within item' candidates)
  | candidates {candidates candidates'} (item : Bound) (h : Wrapped candidates candidates') :
      Wrapped (within item candidates) (within item candidates')
  | source {source source'} (quantifier : Quantifier) (v : Option String) (body : Bound) (h : Wrapped source source') :
      Wrapped (quantified quantifier source v body) (quantified quantifier source' v body)
  | body {body body'} (quantifier : Quantifier) (source : Bound) (v : Option String) (h : Wrapped body body') :
      Wrapped (quantified quantifier source v body) (quantified quantifier source v body')
  | owner {owner owner'} (sort : Access) (name : String) (h : Wrapped owner owner') :
      Wrapped (access sort (some owner) name) (access sort (some owner') name)
  | list {b b'} (front back : List Bound) (h : Wrapped b b') :
      Wrapped (list (front ++ b :: back)) (list (front ++ b' :: back))

mutual

/-- The expression without its conversions. -/
def bare : Bound → Bound
  | const value => const value
  | convert source _ => source.bare
  | unary op operand => unary op operand.bare
  | binary op left right => binary op left.bare right.bare
  | call function args => call function (bareEach args)
  | within item candidates => within item.bare candidates.bare
  | quantified quantifier source v body => quantified quantifier source.bare v body.bare
  | access sort none name => access sort none name
  | access sort (some owner) name => access sort (some owner.bare) name
  | list items => list (bareEach items)
  | var name type => var name type

def bareEach : List Bound → List Bound
  | [] => []
  | b :: bs => b.bare :: bareEach bs

end

theorem bareEach_eq_map : ∀ bs : List Bound, bareEach bs = bs.map bare
  | [] => rfl
  | b :: bs => by rw [bareEach, bareEach_eq_map bs, List.map_cons]

theorem Wrapped.bare_eq {b b' : Bound} (h : Wrapped b b') : b'.bare = b.bare := by
  induction h with
  | here => rfl
  | convert _ _ ih => exact ih
  | _ => simp_all [bare, bareEach_eq_map]

/-- Conversions put in and taken out, in any number, do not change what is under them. -/
theorem bare_eq_of_eqvGen {b b' : Bound} (h : Relation.EqvGen Wrapped b b') : b'.bare = b.bare := by
  induction h with
  | rel _ _ h => exact h.bare_eq
  | refl => rfl
  | symm _ _ _ ih => exact ih.symm
  | trans _ _ _ _ _ ih ih' => exact ih'.trans ih

/-! ## What looks at an expression -/

theorem isBinary_bare : ∀ b : Bound, b.bare.isBinary = b.isBinary
  | convert source _ => isBinary_bare source
  | access _ none _ | access _ (some _) _ | const _ | unary .. | binary .. | call .. | within .. | quantified ..
  | list _ | var .. => rfl

theorem nest_bare (b : Bound) : b.bare.nest = b.nest := by
  induction b using Bound.nodeInduction with
  | convert source target ih => exact ih
  | access sort owner name => cases owner <;> rfl
  | unary | quantified | within => simp_all [bare, nest]
  | binary => simp_all [bare, nest, isBinary_bare]
  | _ => rfl

theorem ownerText_bare (text : String) : ∀ b : Bound, ownerText b.bare text = ownerText b text
  | convert source _ => ownerText_bare text source
  | access _ none _ | access _ (some _) _ | const _ | unary .. | binary .. | call .. | within .. | quantified ..
  | list _ | var .. => rfl

mutual

theorem render_bare : ∀ b : Bound, b.bare.render = b.render
  | const _ => rfl
  | convert source _ => render_bare source
  | unary .not operand => by rw [bare, render_unary_not, render_unary_not, isBinary_bare, render_bare operand]
  | unary .negate operand => by rw [bare, render_unary_negate, render_unary_negate, isBinary_bare, render_bare operand]
  | binary op left right => by
    rw [bare, render_binary, render_binary, isBinary_bare, isBinary_bare, render_bare left, render_bare right]
  | call function args => by rw [bare, render_call, render_call, itemsText_bare args]
  | within item candidates => by rw [bare, render_within, render_within, render_bare item, render_bare candidates]
  | quantified quantifier source v body => by
    rw [bare, render_quantified, render_quantified, render_bare source, render_bare body]
  | access _ none _ => rfl
  | access _ (some owner) _ => by
    rw [bare, render_access_some, render_access_some, ownerText_bare, render_bare owner]
  | list items => by rw [bare, render_list, render_list, itemsText_bare items]
  | var .. => rfl

theorem itemsText_bare : ∀ bs : List Bound, itemsText (bareEach bs) = itemsText bs
  | [] => rfl
  | [b] => render_bare b
  | b :: c :: bs => by
    rw [itemsText_cons_cons, ← render_bare b, ← itemsText_bare (c :: bs)]
    rfl

end

theorem ownerSegments_bare : ∀ b : Bound, b.bare.ownerSegments = b.ownerSegments
  | convert source _ => ownerSegments_bare source
  | access _ none _ => rfl
  | access _ (some owner) _ => by
    rw [bare, ownerSegments, ownerSegments]
    simp only [ownerSegments_bare owner]
  | const _ | unary .. | binary .. | call .. | within .. | quantified .. | list _ | var .. => rfl

theorem path_bare (scope : Option String) : ∀ b : Bound, b.bare.path scope = b.path scope
  | convert source _ => path_bare scope source
  | access _ none _ => rfl
  | access _ (some owner) _ => by
    rw [bare, path, path, Option.elim_some, Option.elim_some, ownerSegments_bare]
  | const _ | unary .. | binary .. | call .. | within .. | quantified .. | list _ | var .. => rfl

theorem operandText_bare (scope : Option String) (b : Bound) : b.bare.operandText scope = b.operandText scope := by
  -- All but constants are shown by their path, or else by their text.
  have same : ∀ u : Bound, u.operandText scope = (u.path scope).getD u.render →
      u.bare.operandText scope = (u.bare.path scope).getD u.bare.render →
      u.bare.operandText scope = u.operandText scope := by
    intro u h h'
    rw [h, h', path_bare, render_bare]
  induction b using Bound.nodeInduction with
  | convert source target ih => exact ih
  | const value => rfl
  | access sort owner name => cases owner <;> exact same _ rfl rfl
  | _ => exact same _ rfl rfl

end Bound

/-! ## Trees -/

theorem map_operandText_bare (scope : Option String) (bs : List Bound) :
    (Bound.bareEach bs).map (Bound.operandText scope) = bs.map (Bound.operandText scope) := by
  rw [Bound.bareEach_eq_map, List.map_map]
  exact List.map_congr_left fun b _ => Bound.operandText_bare scope b

theorem map_render_bare (bs : List Bound) : (Bound.bareEach bs).map Bound.render = bs.map Bound.render := by
  rw [Bound.bareEach_eq_map, List.map_map]
  exact List.map_congr_left fun b _ => b.render_bare

theorem ofLeaf_access_bare (scope : Option String) (sort : Access) (owner : Bound) (name : String) :
    Content.ofLeaf scope (.access sort (some owner.bare) name) =
      Content.ofLeaf scope (.access sort (some owner) name) := by
  have ht : (Bound.access sort (some owner.bare) name).operandText scope =
      (Bound.access sort (some owner) name).operandText scope :=
    Bound.operandText_bare scope (.access sort (some owner) name)
  simp only [Content.ofLeaf, ht]

theorem ofArguments_bare (scope : Option String) (args : List Bound) :
    Content.ofArguments scope (Bound.bareEach args) = Content.ofArguments scope args := by
  have hp : (Bound.bareEach args).head?.bind (Bound.path scope) = args.head?.bind (Bound.path scope) := by
    cases args with
    | nil => rfl
    | cons a args => exact Bound.path_bare scope a
  rw [Content.ofArguments, Content.ofArguments, map_operandText_bare, hp]

theorem outline_bare (b : Bound) : ∀ scope : Option String, Outline.ofBound scope b.bare = Outline.ofBound scope b := by
  induction b using Bound.nodeInduction with
  | convert source target ih => exact ih
  | const | var => exact fun _ => rfl
  | unary op operand ih =>
    intro scope
    show Outline.one scope _ (Bound.unary op operand).bare.render (.ofBound scope operand.bare) = _
    rw [Bound.render_bare, ih]
    rfl
  | binary op left right ihl ihr =>
    intro scope
    show Outline.two scope _ (Bound.binary op left right).bare.render (.ofBound scope left.bare)
      (.ofBound scope right.bare) = _
    rw [Bound.render_bare, ihl, ihr]
    rfl
  | within item candidates ihi ihc =>
    intro scope
    show Outline.two scope _ (Bound.within item candidates).bare.render (.ofBound scope item.bare)
      (.ofBound scope candidates.bare) = _
    rw [Bound.render_bare, ihi, ihc]
    rfl
  | call function args =>
    intro scope
    show Outline.one scope _ (Bound.call function args).bare.render (.leaf scope
      (.ofArguments scope (Bound.bareEach args)) (", ".intercalate ((Bound.bareEach args).map Bound.render))) = _
    rw [Bound.render_bare, ofArguments_bare, map_render_bare]
    rfl
  | quantified quantifier source v body ih =>
    intro scope
    show Outline.one scope _ (Bound.quantified quantifier source v body).bare.render
      (.ofBound ((source.bare.path scope).or scope) body.bare) = _
    rw [Bound.render_bare, Bound.path_bare, ih]
    rfl
  | access sort owner name =>
    intro scope
    cases owner with
    | none => rfl
    | some owner =>
      show Outline.leaf scope (.ofLeaf scope (.access sort (some owner.bare) name))
        (Bound.access sort (some owner) name).bare.render = _
      rw [Bound.render_bare, ofLeaf_access_bare]
      rfl
  | list items =>
    intro scope
    show Outline.leaf scope (.operand .list ((Bound.bareEach items).map (Bound.operandText scope)) none)
      (Bound.list items).bare.render = _
    rw [Bound.render_bare, map_operandText_bare]
    rfl

theorem inventory_of_nodes {t t' : Tree} (h : t'.nodes = t.nodes) : t'.inventory = t.inventory := by
  obtain ⟨_, _, nodes, _⟩ := t
  cases h
  rfl

/-- Expressions that differ in conversions only have the same nodes and the same inventory,
or both nest too deep. -/
theorem Tree.ofBound_wrapped {b b' : Bound} (h : Relation.EqvGen Bound.Wrapped b b') (expression : String)
    (schema : Schema) (options : Options) :
    (ofBound expression b schema options = .error (.tooDeep options.maxDepth) ∧
      ofBound expression b' schema options = .error (.tooDeep options.maxDepth)) ∨
    ∃ t t', ofBound expression b schema options = .ok t ∧ ofBound expression b' schema options = .ok t' ∧
      t'.nodes = t.nodes ∧ t'.inventory = t.inventory := by
  have hbare := Bound.bare_eq_of_eqvGen h
  have hnest : b'.nest = b.nest := by rw [← Bound.nest_bare b', hbare, Bound.nest_bare]
  have hout : Outline.ofBound none b' = Outline.ofBound none b := by rw [← outline_bare b', hbare, outline_bare]
  by_cases hd : b.nest < options.maxDepth
  · have ht : ofBound expression b schema options = .ok _ := ofBound_eq_ok_iff.mpr ⟨hd, rfl⟩
    have ht' : ofBound expression b' schema options = .ok _ := ofBound_eq_ok_iff.mpr ⟨hnest ▸ hd, rfl⟩
    rw [hout] at ht'
    exact .inr ⟨_, _, ht, ht', rfl, inventory_of_nodes rfl⟩
  · refine .inl ⟨?_, ?_⟩
    · rw [ofBound, grow_root, if_neg hd]
    · rw [ofBound, grow_root, if_neg (hnest ▸ hd)]

/-- `(logins/any(x: x/name in ('a', 'b')) or contains(name, 'c')) and email eq null`, with
something done to the left side of the chain, to a collection, an owner, an item and an argument. -/
def retouched (touch : Nat → Bound → Bound) : Bound :=
  let it := Bound.var Bound.instanceName (.entity "N.User")
  let text (s : String) := Bound.const (.string s)
  .binary .and
    (touch 0 (.binary .or
      (.quantified .any (touch 1 (.access .collectionComplex (some it) "logins")) (some "x")
        (.within (.access .property (some (touch 2 (.var "x" (.complex "N.Login")))) "name")
          (.list [text "a", touch 3 (text "b")])))
      (.call "contains" [touch 4 (.access .property (some it) "name"), text "c"])))
    (.binary .eq (.access .property (some it) "email") (.const .null))

theorem Tree.ofBound_wrapped_retouched :
    let plain := retouched fun _ b => b
    let wrapped := retouched fun _ b => .convert b .string
    Relation.EqvGen Bound.Wrapped plain wrapped ∧
      ∃ t t', ofBound "" plain ⟨[]⟩ {} = .ok t ∧ ofBound "" wrapped ⟨[]⟩ {} = .ok t' ∧ t'.nodes = t.nodes ∧
        t'.inventory = t.inventory ∧ t.inventory.properties = ["logins/name", "name", "email"] := by
  intro plain wrapped
  -- The places are wrapped one after the other.
  let upTo (k : Nat) := retouched fun i b => if i < k then .convert b .string else b
  have h₀ : Bound.Wrapped (upTo 0) (upTo 1) := .left .and _ (.here _ .string)
  have h₁ : Bound.Wrapped (upTo 1) (upTo 2) :=
    .left .and _ (.convert _ (.left .or _ (.source .any _ _ (.here _ .string))))
  have h₂ : Bound.Wrapped (upTo 2) (upTo 3) :=
    .left .and _ (.convert _ (.left .or _ (.body .any _ _ (.item _ (.owner .property _ (.here _ .string))))))
  have h₃ : Bound.Wrapped (upTo 3) (upTo 4) :=
    .left .and _ (.convert _ (.left .or _ (.body .any _ _ (.candidates _ (.list [_] [] (.here _ .string))))))
  have h₄ : Bound.Wrapped (upTo 4) (upTo 5) :=
    .left .and _ (.convert _ (.right .or _ (.call "contains" [] [_] (.here _ .string))))
  have h : Relation.EqvGen Bound.Wrapped plain wrapped :=
    .trans _ _ _ (.rel _ _ h₀) (.trans _ _ _ (.rel _ _ h₁) (.trans _ _ _ (.rel _ _ h₂)
      (.trans _ _ _ (.rel _ _ h₃) (.rel _ _ h₄))))
  have hp : (ofBound "" plain ⟨[]⟩ {}).toOption.any (fun t =>
      t.inventory.properties == ["logins/name", "name", "email"]) = true := by
    decide +kernel
  obtain ⟨t, ht, hp⟩ := exists_of_any hp
  refine ⟨h, ?_⟩
  obtain ⟨hdeep, -⟩ | ⟨u, t', hu, ht', hnodes, hinv⟩ := ofBound_wrapped h "" ⟨[]⟩ {}
  · cases ht.symm.trans hdeep
  · cases ht.symm.trans hu
    exact ⟨t, t', ht, ht', hnodes, hinv, eq_of_beq hp⟩

end FilterGuard
