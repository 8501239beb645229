import FilterGuard.Proofs.Anonymous
import FilterGuard.Proofs.Attribution
import FilterGuard.Proofs.Room

/-!
# Inventories and the names of variables

In a path a variable stands for the collection that its quantifier ranges over, and
that collection has a path of its own. So the inventory of a tree does not show the
names of variables, and renaming them gets around no rule.
-/

namespace FilterGuard
open Bound (instanceName)

namespace Bound

theorem operatorNames_anonymous (b : Bound) : b.anonymous.operatorNames = b.operatorNames := by
  induction b using Bound.nodeInduction with
  | access sort owner name => cases owner <;> rfl
  | unary | convert | quantified => simp_all [anonymous, operatorNames]
  | binary | within => simp_all [anonymous, operatorNames]
  | _ => rfl

theorem isBinary_anonymous : ∀ b : Bound, b.anonymous.isBinary = b.isBinary
  | convert source _ => isBinary_anonymous source
  | access _ none _ | access _ (some _) _ | const _ | unary .. | binary .. | call .. | within .. | quantified ..
  | list _ | var .. => rfl

theorem nest_anonymous (b : Bound) : b.anonymous.nest = b.nest := by
  induction b using Bound.nodeInduction with
  | access sort owner name => cases owner <;> rfl
  | unary | convert | quantified | within => simp_all [anonymous, nest]
  | binary => simp_all [anonymous, nest, isBinary_anonymous]
  | _ => rfl

theorem ownerSegments_anonymous : ∀ b : Bound, b.anonymous.ownerSegments = b.ownerSegments
  | convert source _ => ownerSegments_anonymous source
  | access _ none _ => rfl
  | access _ (some owner) _ => by
    rw [anonymous, ownerSegments, ownerSegments]
    simp only [ownerSegments_anonymous owner]
  | const _ | unary .. | binary .. | call .. | within .. | quantified .. | list _ | var .. => rfl

/-- Where variables can occur there is a path that they stand for. -/
def Stands (vars : List String) (scope : Option String) : Prop :=
  vars = [] ∨ ∃ front ≠ "", scope = some front

variable {vars : List String} {scope : Option String}

theorem path_anonymous_of_isPath (hs : Stands vars scope) : ∀ {b : Bound}, b.anonymous.IsPath vars →
    b.anonymous.path scope = b.path scope
  | access _ none _, _ => rfl
  | access _ (some owner) _, _ => by
    rw [anonymous, path, path, Option.elim_some, Option.elim_some, ownerSegments_anonymous]
  | var name type, h => by
    cases h with
    | var _ hv =>
      by_cases hn : name = instanceName
      · rw [anonymous, anonymousName, if_pos hn, hn]
      · rw [anonymousName, if_neg hn] at hv
        have hv := hv.resolve_left (by decide)
        rcases hs with rfl | ⟨front, hf, rfl⟩
        · cases hv
        · simp [anonymous, path, Option.filter, hf]

theorem path_anonymous (hs : Stands vars scope) (b : Bound) (h : b.anonymous.Orderly vars) :
    b.anonymous.path scope = b.path scope := by
  induction b using Bound.nodeInduction with
  | convert source target ih =>
    cases h with
    | convert _ h => exact ih h
    | path hp => cases hp
  | access sort owner name =>
    cases owner with
    | none => rfl
    | some owner =>
      cases h with
      | path hp => exact path_anonymous_of_isPath hs hp
  | var name type =>
    cases h with
    | path hp => exact path_anonymous_of_isPath hs hp
  | _ => rfl

theorem path_of_isSource (hs : Stands vars scope) {b : Bound} (h : b.IsSource vars) :
    ∃ path ≠ "", b.path scope = some path := by
  cases h with
  | var type hv =>
    rcases hs with rfl | ⟨front, hf, rfl⟩
    · cases hv
    · exact ⟨front, hf, by simp [path, Option.filter, hf]⟩
  | access sort ho hn => exact ⟨_, behind_ne_empty hn, path_access scope sort ho _⟩

theorem leaves_anonymous (b : Bound) : ∀ {vars : List String} {scope : Option String} (around : List String),
    Stands vars scope → b.anonymous.Orderly vars → b.anonymous.leaves scope around = b.leaves scope around := by
  induction b using Bound.nodeInduction with
  | convert source target ih =>
    intro vars scope around hs h
    cases h with
    | convert _ h => exact ih around hs h
    | path hp => cases hp
  | unary op operand ih =>
    intro vars scope around hs h
    cases h with
    | unary _ h => exact ih _ hs h
    | path hp => cases hp
  | binary op left right ihl ihr =>
    intro vars scope around hs h
    cases h with
    | binary _ hl hr => rw [anonymous, leaves, leaves, ihl _ hs hl, ihr _ hs hr]
    | path hp => cases hp
  | within item candidates ihi ihc =>
    intro vars scope around hs h
    cases h with
    | within hi hc => rw [anonymous, leaves, leaves, ihi _ hs hi, ihc _ hs hc]
    | path hp => cases hp
  | call function args =>
    intro vars scope around hs h
    cases h with
    | call _ ha =>
      cases args with
      | nil => rfl
      | cons a args =>
        have hp := path_anonymous hs a (ha a.anonymous (by simp [anonymousEach]))
        simp [anonymous, anonymousEach, leaves, hp]
    | path hp => cases hp
  | quantified quantifier source v body ih =>
    intro vars scope around hs h
    cases h with
    | quantified _ _ hsource hb =>
      obtain ⟨path, hp, he⟩ := path_of_isSource hs hsource
      have hsame := path_anonymous hs source (.path hsource.isPath)
      have hscope : (source.path scope).or scope = some path := by rw [← hsame, he, Option.some_or]
      rw [anonymous, leaves, leaves, hsame, hscope]
      exact ih _ (.inr ⟨path, hp, rfl⟩) hb
    | path hp => cases hp
  | access sort owner name =>
    intro vars scope around hs h
    have hp := path_anonymous hs _ h
    cases owner with
    | none => rfl
    | some owner => cases sort <;> simp_all [anonymous, leaves, property?, subject?]
  | var name type =>
    intro vars scope around hs h
    have hp := path_anonymous hs _ h
    simp_all [anonymous, leaves, property?, subject?]
  | const | list => exact fun _ _ _ => rfl

/-! ## Orderly expressions -/

theorem mem_anonymous {name : String} (h : name = instanceName ∨ name ∈ vars) :
    anonymousName name = instanceName ∨ anonymousName name ∈ vars.map anonymousName :=
  h.imp (fun hn => if_pos hn) List.mem_map_of_mem

theorem IsOwner.anonymous {b : Bound} (h : b.IsOwner vars) : b.anonymous.IsOwner (vars.map anonymousName) := by
  induction h with
  | var type hv => exact .var type (mem_anonymous hv)
  | complex _ hn ih => exact .complex ih hn
  | navigation _ hn ih => exact .navigation ih hn

theorem IsPath.anonymous {b : Bound} (h : b.IsPath vars) : b.anonymous.IsPath (vars.map anonymousName) := by
  cases h with
  | var type hv => exact .var type (mem_anonymous hv)
  | access sort ho hn => exact .access sort ho.anonymous hn

theorem IsSource.anonymous {b : Bound} (h : b.IsSource vars) : b.anonymous.IsSource (vars.map anonymousName) := by
  cases h with
  | var type hv => exact .var type (List.mem_map_of_mem hv)
  | access sort ho hn => exact .access sort ho.anonymous hn

theorem Orderly.anonymous {b : Bound} (h : b.Orderly vars) : b.anonymous.Orderly (vars.map anonymousName) := by
  have each : ∀ {vars : List String} {bs : List Bound}, (∀ b ∈ bs, b.anonymous.Orderly vars) →
      ∀ b ∈ anonymousEach bs, b.Orderly vars := by
    intro vars bs h b hb
    rw [anonymousEach_eq_map] at hb
    obtain ⟨a, ha, rfl⟩ := List.mem_map.mp hb
    exact h a ha
  induction h with
  | const value => exact .const value
  | convert target _ ih => exact .convert target ih
  | unary op _ ih => exact .unary op ih
  | binary op _ _ ihl ihr => exact .binary op ihl ihr
  | call function _ ih => exact .call function (each ih)
  | within _ _ ihi ihc => exact .within ihi ihc
  | quantified quantifier v hs _ ih =>
    refine .quantified quantifier _ hs.anonymous ?_
    cases v <;> exact ih
  | list _ ih => exact .list (each ih)
  | path hp => exact .path hp.anonymous

/-- Orderly expressions that differ in the names of variables only have the same leaves. -/
theorem leaves_congr {b b' : Bound} (h : b.Orderly []) (he : b'.anonymous = b.anonymous) :
    b'.leaves none [] = b.leaves none [] := by
  have ha := h.anonymous
  rw [← leaves_anonymous b [] (.inl rfl) ha, ← leaves_anonymous b' [] (.inl rfl) (he ▸ ha), he]

end Bound

/-- The inventory of the tree of an expression, read off the expression. -/
theorem map_inventory_ofBound (expression : String) (b : Bound) (schema : Schema) (options : Options) :
    (Tree.ofBound expression b schema options).map Tree.inventory =
      if b.nest < options.maxDepth then
        .ok ⟨b.operatorNames, (b.leaves none []).filterMap Leaf.property,
          gather ((b.leaves none []).filterMap Leaf.use?) .empty⟩
      else .error (.tooDeep options.maxDepth) := by
  by_cases hn : b.nest < options.maxDepth
  · have ht : Tree.ofBound expression b schema options = .ok _ := Tree.ofBound_eq_ok_iff.mpr ⟨hn, rfl⟩
    have hd := Tree.has_ofBound ht
    rw [if_pos hn, ht, ← Tree.operators_eq hd, ← Tree.properties_eq hd, ← Tree.propertyOperators_eq hd]
    rfl
  · rw [if_neg hn, Tree.ofBound, grow_root, if_neg hn]
    rfl

theorem inventory_congr {b b' : Bound} (h : b.Orderly []) (he : b'.anonymous = b.anonymous)
    (expression expression' : String) (schema : Schema) (options : Options) :
    (Tree.ofBound expression' b' schema options).map Tree.inventory =
      (Tree.ofBound expression b schema options).map Tree.inventory := by
  rw [map_inventory_ofBound, map_inventory_ofBound, Bound.leaves_congr h he, ← Bound.nest_anonymous b', he,
    Bound.nest_anonymous, ← Bound.operatorNames_anonymous b', he, Bound.operatorNames_anonymous]

/-! ## Renaming -/

theorem exists_bind_of_alike {schema : Schema} {type : Element} {options : Options} {e e' : Expr} {b : Bound}
    (h : Expr.Alike [] e e') (hb : Binding.bind schema type options e = .ok b) :
    ∃ b', Binding.bind schema type options e' = .ok b' ∧ b'.anonymous = b.anonymous := by
  have hn := Binding.nesting_of_bind hb
  obtain ⟨x, hx, hr, rfl⟩ := Binding.meaning_of_bind hb
  have ha := Binding.meaning_alike ⟨schema, .entity type.fullName, options⟩ h .nil
  rw [hx] at ha
  obtain ⟨x', hx', hxx⟩ := map_ok ha
  have hr' := (Binding.requireBoolean_congr hxx).trans hr
  exact ⟨x'.node, Binding.bind_eq_ok_iff.mpr ⟨h.nesting_eq ▸ hn, (ok_bind hx' _).trans (ok_bind hr' _)⟩,
    (Binding.anonymous_eq hxx).1⟩

/-- Renaming a variable changes neither that a filter can be bound nor the inventory of
its tree, so no choice of names gets around a rule. -/
theorem inventory_renamed {text : String} {limit : Nat} {e e' : Expr} (he : Expr.parse text limit = .ok e)
    (hr : e.Renamed e') {schema : Schema} {type : Element} {options : Options} {b : Bound}
    (hb : Binding.bind schema type options e = .ok b) :
    ∃ b', Binding.bind schema type options e' = .ok b' ∧ ∀ (expression expression' : String) (limits : Options),
      (Tree.ofBound expression' b' schema limits).map Tree.inventory =
        (Tree.ofBound expression b schema limits).map Tree.inventory := by
  obtain ⟨b', hb', ha⟩ := exists_bind_of_alike (hr.alike fun _ => rfl) hb
  -- A text has no way to write a quantifier over anything but a path, or a path without names.
  have ho : b.Orderly [] := by
    obtain ⟨x, hx, -, rfl⟩ := Binding.meaning_of_bind hb
    have hroot : ∀ item, EdmType.entity type.fullName ≠ .collection item := nofun
    exact (Binding.orderly_meaning hroot e (Expr.orderly_of_parse he) hx).1
  exact ⟨b', hb', fun expression expression' limits => inventory_congr ho ha expression expression' schema limits⟩

/-- The new name of `x` is that of a property, which the body does not mention. -/
theorem inventory_renamed_logins :
    ∃ user body b b' t t', users.requireType "User" = .ok user ∧
      Expr.parse "logins/any(x: x/name eq 'a' or x/devices/any(d: d/name ne x/name))" 256 =
        .ok (.quantified .any (.name "logins") "x" body) ∧
      Binding.bind users user {} (.quantified .any (.name "logins") "x" body) = .ok b ∧
      Binding.bind users user {} (.quantified .any (.name "logins") "email" (body.rename "x" "email")) = .ok b' ∧
      Tree.ofBound "" b users {} = .ok t ∧ Tree.ofBound "" b' users {} = .ok t' ∧ t'.inventory = t.inventory ∧
      t.inventory.properties = ["logins/name", "logins/devices/name", "logins/devices/name"] := by
  have h : (Expr.parse "logins/any(x: x/name eq 'a' or x/devices/any(d: d/name ne x/name))" 256).toOption.any
      (fun e => match e with
        | .quantified .any (.name "logins") "x" body =>
          decide ("email" ∉ body.boundNames ∧ "email" ∉ body.rootNames) &&
            (users.requireType "User").toOption.any fun user =>
              (Binding.bind users user {} e).toOption.any fun b =>
                (Tree.ofBound "" b users {}).toOption.any fun t =>
                  t.inventory.properties == ["logins/name", "logins/devices/name", "logins/devices/name"]
        | _ => false) = true := by
    decide +kernel
  obtain ⟨e, he, hp⟩ := exists_of_any h
  split at hp
  · next body =>
    obtain ⟨hw, hp⟩ := Bool.and_eq_true_iff.mp hp
    obtain ⟨hb, hr⟩ := of_decide_eq_true hw
    obtain ⟨user, hu, hp⟩ := exists_of_any hp
    obtain ⟨b, hbind, hp⟩ := exists_of_any hp
    obtain ⟨t, ht, hp⟩ := exists_of_any hp
    have hrenamed := Expr.Renamed.here .any (.name "logins") (v := "x") (by decide) (by decide) hb hr
    obtain ⟨b', hbind', hi⟩ := inventory_renamed he hrenamed hbind
    have hi := hi "" "" {}
    rw [ht] at hi
    obtain ⟨t', ht', hi⟩ := map_ok hi
    exact ⟨user, body, b, b', t, t', hu, he, hbind, hbind', ht, ht', hi, eq_of_beq hp⟩
  · cases hp

end FilterGuard
