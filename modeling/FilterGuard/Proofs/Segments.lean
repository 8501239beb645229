import FilterGuard.Proofs.Attribution
import FilterGuard.Proofs.BindingRules

/-!
# Segments of paths

Every name of a path becomes one segment of the path that is reported for it, in the
spelling of the property that the name means. Binding makes nothing else of a name than an
access, and all but the last one are accesses to single instances, so a reported path goes
back to the first name. Only the last name may have no property, on an open type.
-/

namespace FilterGuard
open Binding Text

/-- The names of a path, without that of the filtered instance in front. -/
def Expr.segments? : Expr → Option (List String)
  | name n => some (if n = Bound.instanceName then [] else [n])
  | member owner n => owner.segments?.map (· ++ [n])
  | _ => none

/-- Whether an expression stands in another one, but not in the body of a quantifier. -/
inductive Expr.StandsIn (p : Expr) : Expr → Prop
  | self : StandsIn p p
  | item {items e} (he : e ∈ items) (h : StandsIn p e) : StandsIn p (.list items)
  | owner {owner} (name : String) (h : StandsIn p owner) : StandsIn p (.member owner name)
  | sourceEmpty (quantifier : Quantifier) {source} (h : StandsIn p source) :
      StandsIn p (.quantifiedEmpty quantifier source)
  | source (quantifier : Quantifier) {source} (v : String) (body : Expr) (h : StandsIn p source) :
      StandsIn p (.quantified quantifier source v body)
  | argument (function : String) {args e} (he : e ∈ args) (h : StandsIn p e) : StandsIn p (.call function args)
  | operand (op : UnaryOp) {operand} (h : StandsIn p operand) : StandsIn p (.unary op operand)
  | left (op : BinaryOp) {left} (right : Expr) (h : StandsIn p left) : StandsIn p (.binary op left right)
  | right (op : BinaryOp) (left : Expr) {right} (h : StandsIn p right) : StandsIn p (.binary op left right)
  | subject {item} (candidates : Expr) (h : StandsIn p item) : StandsIn p (.within item candidates)
  | candidates (item : Expr) {candidates} (h : StandsIn p candidates) : StandsIn p (.within item candidates)

/-- Whether a bound expression stands in another one, but not in the body of a quantifier. -/
inductive Bound.StandsIn (n : Bound) : Bound → Prop
  | self : StandsIn n n
  | converted {source} (target : Primitive) (h : StandsIn n source) : StandsIn n (.convert source target)
  | operand (op : UnaryOp) {operand} (h : StandsIn n operand) : StandsIn n (.unary op operand)
  | left (op : BinaryOp) {left} (right : Bound) (h : StandsIn n left) : StandsIn n (.binary op left right)
  | right (op : BinaryOp) (left : Bound) {right} (h : StandsIn n right) : StandsIn n (.binary op left right)
  | argument (function : String) {args b} (hb : b ∈ args) (h : StandsIn n b) : StandsIn n (.call function args)
  | subject {item} (candidates : Bound) (h : StandsIn n item) : StandsIn n (.within item candidates)
  | candidates (item : Bound) {candidates} (h : StandsIn n candidates) : StandsIn n (.within item candidates)
  | source (quantifier : Quantifier) {source} (v : Option String) (body : Bound) (h : StandsIn n source) :
      StandsIn n (.quantified quantifier source v body)
  | owner (sort : Access) {owner} (name : String) (h : StandsIn n owner) :
      StandsIn n (.access sort (some owner) name)
  | item {items b} (hb : b ∈ items) (h : StandsIn n b) : StandsIn n (.list items)

/-! ## Spellings -/

/-- The element that has the properties of an instance. -/
def Schema.structured? (s : Schema) : EdmType → Option Element
  | .complex name | .entity name => s.structuredType name
  | _ => none

/-- The spellings of the names of a path, and the type that it leads to. A name is spelled
as its property is declared. After one without a property there is no further one. -/
inductive Schema.Spells (s : Schema) (ignoreCase : Bool) (root : EdmType) :
    List String → List String → Option EdmType → Prop
  | root : Spells s ignoreCase root [] [] (some root)
  | declared {names spelled type e p} {name : String} (h : Spells s ignoreCase root names spelled (some type))
      (he : s.structured? type = some e) (hp : e.findProperty name ignoreCase = .found p) :
      Spells s ignoreCase root (names ++ [name]) (spelled ++ [p.name]) (some p.type)
  | undeclared {names spelled type e} {name : String} (h : Spells s ignoreCase root names spelled (some type))
      (he : s.structured? type = some e) (hopen : e.isOpen = true)
      (hp : e.findProperty name ignoreCase = .missing) :
      Spells s ignoreCase root (names ++ [name]) (spelled ++ [name]) none

namespace Schema

variable {s : Schema} {ignoreCase : Bool} {root : EdmType} {names spelled : List String} {type : Option EdmType}

/-- There is one spelling for each name, the same up to case. -/
theorem Spells.sameName (h : s.Spells ignoreCase root names spelled type) :
    List.Forall₂ (fun name segment => sameName segment name = true) names spelled := by
  induction h with
  | root => exact .nil
  | declared _ _ hp ih => exact List.rel_append ih (.cons (sameName_of_found hp) .nil)
  | undeclared _ _ _ _ ih => exact List.rel_append ih (.cons (sameName_self _) .nil)

theorem Spells.length_eq (h : s.Spells ignoreCase root names spelled type) : names.length = spelled.length :=
  h.sameName.length_eq

end Schema

theorem Expr.StandsIn.orderly {p e : Expr} (h : p.StandsIn e) (he : e.Orderly) : p.Orderly := by
  induction h with
  | self => exact he
  | item hm _ ih =>
    cases he with
    | list _ hi => exact ih (hi _ hm)
  | argument _ hm _ ih =>
    cases he with
    | call _ _ ha => exact ih (ha _ hm)
  | owner _ _ ih =>
    cases he with
    | member _ ho _ => exact ih ho
  | sourceEmpty _ _ ih =>
    cases he with
    | quantifiedEmpty _ hs => exact ih hs
  | source _ _ _ _ ih =>
    cases he with
    | quantified _ hs _ _ => exact ih hs
  | operand _ _ ih =>
    cases he with
    | unary ho => exact ih ho
  | left _ _ _ ih =>
    cases he with
    | binary hl _ => exact ih hl
  | right _ _ _ ih =>
    cases he with
    | binary _ hr => exact ih hr
  | subject _ _ ih =>
    cases he with
    | within hi _ => exact ih hi
  | candidates _ _ ih =>
    cases he with
    | within _ hc => exact ih hc

namespace Binding

variable {ctx : Context} {vars : Scope}

/-! ## Paths -/

theorem spells_property {owner : Bound} {type : EdmType} {full name : String} {x : Typed} {names : List String}
    (ht : ctx.schema.structured? type = ctx.schema.structuredType full)
    (ho : ctx.schema.Spells ctx.options.ignoreCase ctx.root names owner.segments (some type))
    (h : property ctx owner full name = .ok x) :
    ctx.schema.Spells ctx.options.ignoreCase ctx.root (names ++ [name]) x.node.segments x.type := by
  unfold property at h
  split at h
  · cases h
  next e he =>
  have he := ht.trans he
  split at h
  · next p hp =>
    cases h
    exact .declared ho he hp
  · next hp =>
    by_cases hopen : e.isOpen = true
    · rw [if_pos hopen] at h
      cases h
      exact .undeclared ho he hopen hp
    · rw [if_neg hopen] at h
      cases h
  · cases h

/-- The next name of a path is spelled out behind its owner. -/
theorem spells_member {owner x : Typed} {name : String} {names : List String}
    (ho : ctx.schema.Spells ctx.options.ignoreCase ctx.root names owner.node.segments owner.type)
    (h : member ctx owner name = .ok x) :
    ctx.schema.Spells ctx.options.ignoreCase ctx.root (names ++ [name]) x.node.segments x.type := by
  unfold member at h
  split at h
  · next ht => exact spells_property rfl (ht ▸ ho) h
  · next ht => exact spells_property rfl (ht ▸ ho) h
  · cases h

/-- The segments of a bound path are the spellings of its names. -/
theorem spells_of_meaning : ∀ {e : Expr} {names : List String} {x : Typed}, e.segments? = some names →
    meaning ctx [] e = .ok x →
    ctx.schema.Spells ctx.options.ignoreCase ctx.root names x.node.segments x.type
  | .name name, names, x, hs, h => by
    rw [meaning, resolve] at h
    cases hs
    by_cases hn : name = Bound.instanceName
    · rw [if_pos hn] at h ⊢
      cases h
      exact .root
    · rw [if_neg hn] at h ⊢
      exact spells_member .root h
  | .member owner name, names, x, hs, h => by
    rw [meaning] at h
    obtain ⟨y, hy, h⟩ := bind_ok h
    obtain ⟨front, hf, rfl⟩ := Option.map_eq_some_iff.mp hs
    exact spells_member (spells_of_meaning hf hy) h

theorem isPath_of_meaning (hroot : ∀ item, ctx.root ≠ .collection item) : ∀ {e : Expr} {names : List String}
    {x : Typed}, e.Orderly → e.segments? = some names → meaning ctx vars e = .ok x →
    x.node.IsPath (vars.map Prod.fst)
  | .name name, names, x, he, hs, h => by
    rw [meaning] at h
    cases he with
    | name hn => exact (reached_resolve hroot h hn.ne_empty).1
  | .member owner name, names, x, he, hs, h => by
    rw [meaning] at h
    obtain ⟨y, hy, h⟩ := bind_ok h
    cases he with
    | member hp ho hn => exact (reached_member h ((orderly_meaning hroot owner ho hy).2 hp) hn.ne_empty).1

/-- A path is reported with one segment for each of its names. -/
theorem path_of_meaning (hroot : ∀ item, ctx.root ≠ .collection item) {e : Expr} {names : List String} {x : Typed}
    (he : e.Orderly) (hs : e.segments? = some names) (hn : names ≠ []) (h : meaning ctx [] e = .ok x) :
    x.node.path none = some ("/".intercalate x.node.segments) := by
  have hspells := spells_of_meaning hs h
  have hpath := isPath_of_meaning hroot he hs h
  cases hx : x.node with
  | var =>
    rw [hx] at hspells
    exact absurd (List.length_eq_zero_iff.mp hspells.length_eq) hn
  | access sort owner name =>
    rw [hx] at hpath
    cases hpath with
    | access _ ho _ =>
      rw [Bound.path_access none sort ho, Bound.segments, Bound.behind, if_neg (by simp)]
      rfl
  | _ =>
    rw [hx] at hpath
    cases hpath

/-! ## Paths in filters -/

/-- What the names of a path become is not coerced to a constant. -/
theorem node_of_segments {e : Expr} {names : List String} {x : Typed} (hs : e.segments? = some names)
    (h : Means ctx vars e x) : ∀ v, x.node.unconverted ≠ .const v := by
  cases h with
  | name h =>
    obtain ⟨_, _, hx⟩ | ⟨_, _, hx⟩ := node_resolve h <;> rw [hx] <;> exact nofun
  | member _ h =>
    obtain ⟨_, _, hx⟩ := node_member h
    rw [hx]
    exact nofun
  | _ => cases hs

theorem standsIn_unconverted {n b : Bound} (h : n.StandsIn b) {v : Literal} (hb : b.unconverted = .const v) :
    n.unconverted = .const v := by
  induction h with
  | self => exact hb
  | converted _ _ ih => exact ih hb
  | _ => cases hb

/-- A coerced operand still has all that stands in it, unless it was a constant. -/
theorem standsIn_coerced {n b c : Bound} (hn : ∀ v, n.unconverted ≠ .const v) (h : n.StandsIn b)
    (hc : Coerced b c) : n.StandsIn c := by
  cases hc with
  | same => exact h
  | convert target => exact .converted target h
  | member hb => exact absurd (standsIn_unconverted h hb) (hn _)

theorem exists_means {es : List Expr} {xs : List Typed} (hl : es.length = xs.length)
    (hz : ∀ p ∈ es.zip xs, Means ctx vars p.1 p.2) {e : Expr} (he : e ∈ es) : ∃ x ∈ xs, Means ctx vars e x := by
  obtain ⟨x, hm, hx⟩ := exists_zip_of_mem (List.forall₂_iff_zip.mpr ⟨hl, fun hp => hz _ hp⟩) he
  exact ⟨x, (List.of_mem_zip hm).2, hx⟩

theorem standsIn_items {n : Bound} (hn : ∀ v, n.unconverted ≠ .const v) (hl : ∀ items, n ≠ .list items)
    {type : Option EdmType} {xs ys : List Typed} (hi : List.Forall₂ (fun x y => asItem ctx type x = .ok y) xs ys)
    (h : n.StandsIn (.list (xs.map Typed.node))) : n.StandsIn (.list (ys.map Typed.node)) := by
  cases h with
  | self => exact absurd rfl (hl _)
  | item hb h =>
    obtain ⟨x, hx, rfl⟩ := List.mem_map.mp hb
    obtain ⟨y, hm, hy⟩ := exists_zip_of_mem hi hx
    exact .item (List.mem_map_of_mem (List.of_mem_zip hm).2) (standsIn_coerced hn h (coerced_asItem hy))

/-- A path that stands in an expression has a meaning of its own, which stands in the meaning
of the expression. -/
theorem exists_of_standsIn {p e : Expr} (h : p.StandsIn e) {names : List String} (hs : p.segments? = some names) :
    ∀ {x : Typed}, Means ctx vars e x → ∃ y, Means ctx vars p y ∧ y.node.StandsIn x.node := by
  induction h with
  | self => exact fun hx => ⟨_, hx, .self⟩
  | item he _ ih =>
    intro x hx
    cases hx with
    | list hl hz =>
      obtain ⟨x, hm, hx⟩ := exists_means hl hz he
      obtain ⟨y, hy, hs⟩ := ih hx
      exact ⟨y, hy, .item (List.mem_map_of_mem hm) hs⟩
  | owner name _ ih =>
    intro x hx
    cases hx with
    | member ho h =>
      obtain ⟨y, hy, hs⟩ := ih ho
      obtain ⟨sort, declared, hx⟩ := node_member h
      exact ⟨y, hy, hx ▸ .owner sort declared hs⟩
  | sourceEmpty quantifier _ ih =>
    intro x hx
    cases hx with
    | quantifiedEmpty _ hx _ =>
      obtain ⟨y, hy, hs⟩ := ih hx
      exact ⟨y, hy, .source _ _ _ hs⟩
  | source quantifier v body _ ih =>
    intro x hx
    cases hx with
    | quantified _ _ hx _ _ _ =>
      obtain ⟨y, hy, hs⟩ := ih hx
      exact ⟨y, hy, .source _ _ _ hs⟩
  | argument function he _ ih =>
    intro x hx
    cases hx with
    | call _ hl hz _ =>
      obtain ⟨x, hm, hx⟩ := exists_means hl hz he
      obtain ⟨y, hy, hs⟩ := ih hx
      exact ⟨y, hy, .argument _ (List.mem_map_of_mem hm) hs⟩
  | operand op _ ih =>
    intro x hx
    cases hx with
    | unary hx h =>
      obtain ⟨y, hy, hs⟩ := ih hx
      exact ⟨y, hy, node_combineUnary h ▸ .operand op hs⟩
  | left op right _ ih =>
    intro x hx
    cases hx with
    | binary hx _ h =>
      obtain ⟨y, hy, hy'⟩ := ih hx
      obtain ⟨l, r, hj, hl, -⟩ := joined_combine h
      exact ⟨y, hy, hj ▸ .left op r (standsIn_coerced (node_of_segments hs hy) hy' hl)⟩
  | right op left _ ih =>
    intro x hx
    cases hx with
    | binary _ hx h =>
      obtain ⟨y, hy, hy'⟩ := ih hx
      obtain ⟨l, r, hj, -, hr⟩ := joined_combine h
      exact ⟨y, hy, hj ▸ .right op l (standsIn_coerced (node_of_segments hs hy) hy' hr)⟩
  | subject candidates _ ih =>
    intro x hx
    cases hx with
    | among hx _ _ _ _ _ | within hx _ _ _ _ =>
      obtain ⟨y, hy, hs⟩ := ih hx
      exact ⟨y, hy, .subject _ hs⟩
  | @candidates item candidates h ih =>
    intro x hx
    cases hx with
    | among _ _ hc hl hz hi =>
      cases candidates with
      | list items =>
        cases hc
        obtain ⟨y, hy, hy'⟩ := ih (.list hl hz)
        have hp : p.items? = none := by cases p <;> first | rfl | cases hs
        exact ⟨y, hy, .candidates _ (standsIn_items (node_of_segments hs hy) ((node_of_means hy).2 hp) hi hy')⟩
      | literal value =>
        cases h
        cases hs
      | _ => cases hc
    | within _ _ _ hx _ =>
      obtain ⟨y, hy, hs⟩ := ih hx
      exact ⟨y, hy, .candidates _ hs⟩

/-- A path that is reported with all of its names, each in the spelling of its property. -/
def Whole (ctx : Context) (names : List String) (x : Typed) : Prop :=
  ∃ spelled, ctx.schema.Spells ctx.options.ignoreCase ctx.root names spelled x.type ∧
    List.Forall₂ (fun name segment => sameName segment name = true) names spelled ∧
    x.node.path none = some ("/".intercalate spelled)

theorem whole_of_meaning (hroot : ∀ item, ctx.root ≠ .collection item) {p : Expr} {names : List String} {x : Typed}
    (hp : p.Orderly) (hs : p.segments? = some names) (hn : names ≠ []) (h : meaning ctx [] p = .ok x) :
    Whole ctx names x := by
  have hspells := spells_of_meaning hs h
  exact ⟨x.node.segments, hspells, hspells.sameName, path_of_meaning hroot hp hs hn h⟩

end Binding

/-- No name is lost of a path outside the bodies of quantifiers: what a binder without
variables makes of the path is reported with all names, and in a filter that is bound this
stands where the path does. -/
theorem whole_of_segments {text : String} {limit : Nat} {e p : Expr} {names : List String}
    (he : Expr.parse text limit = .ok e) (hp : p.StandsIn e) (hs : p.segments? = some names) (hn : names ≠ [])
    (s : Schema) (type : Element) (options : Options) :
    let ctx : Context := ⟨s, .entity type.fullName, options⟩
    (∀ room depth x, depth + room = options.maxDepth →
      ((bindIn ctx room p).run.run ⟨#[], depth⟩).1 = .ok x → Whole ctx names x) ∧
    ∀ b, bind s type options e = .ok b →
      ∃ x, meaning ctx [] p = .ok x ∧ x.node.StandsIn b ∧ Whole ctx names x := by
  intro ctx
  have hroot : ∀ item, ctx.root ≠ .collection item := nofun
  have hp' := hp.orderly (Expr.orderly_of_parse he)
  refine ⟨fun room depth x hd h => ?_, fun b hb => ?_⟩
  · obtain hr | ⟨-, hr⟩ := (faithful ctx p).bindIn (s := ⟨#[], depth⟩) hd
    · rw [hr] at h
      exact whole_of_meaning hroot hp' hs hn h
    · rw [hr] at h
      cases h
  · obtain ⟨x, hx, -, rfl⟩ := meaning_of_bind hb
    obtain ⟨y, hy, hy'⟩ := exists_of_standsIn hp hs (meaning_ok_iff.mp hx)
    have hy := meaning_ok_iff.mpr hy
    exact ⟨y, hy, hy', whole_of_meaning hroot hp' hs hn hy⟩

def person : Element :=
  ⟨"N", "Person", .entity, ["Id"],
    [⟨"Id", .primitive .int32⟩, ⟨"Boss", .entity "N.Person"⟩, ⟨"Home", .complex "N.Place"⟩], [], false⟩

/-- Persons with bosses and homes, where homes have undeclared properties as well. -/
def persons : Schema :=
  ⟨[person, ⟨"N", "Place", .complex, [], [⟨"City", .primitive .string⟩], [], true⟩]⟩

theorem Expr.standsIn_chain (e : Expr) (steps : List (BinaryOp × Expr)) : (chain e steps).1.StandsIn e := by
  fun_induction chain e steps with
  | case1 op left right steps ih => exact .left op right ih
  | case2 e steps => exact .self

theorem whole_persons :
    let ctx : Context := ⟨persons, .entity "N.Person", {}⟩
    ∃ e p b x, Expr.parse "$it/boss/HOME/Floor eq home/city" 256 = .ok e ∧ p.StandsIn e ∧
      p.segments? = some ["boss", "HOME", "Floor"] ∧ bind persons person {} e = .ok b ∧
      meaning ctx [] p = .ok x ∧ x.node.StandsIn b ∧ Whole ctx ["boss", "HOME", "Floor"] x ∧
      x.node.path none = some "Boss/Home/Floor" := by
  intro ctx
  have h : (Expr.parse "$it/boss/HOME/Floor eq home/city" 256).toOption.any (fun e =>
      (chain e []).1.segments? == some ["boss", "HOME", "Floor"] &&
        (bind persons person {} e).toOption.any (fun _ => true) &&
        (meaning ctx [] (chain e []).1).toOption.any (fun x => x.node.path none == some "Boss/Home/Floor")) = true := by
    decide +kernel
  obtain ⟨e, he, h⟩ := exists_of_any h
  simp only [Bool.and_eq_true, beq_iff_eq] at h
  obtain ⟨⟨hs, hb⟩, hx⟩ := h
  obtain ⟨b, hb, -⟩ := exists_of_any hb
  obtain ⟨x, hx, hpath⟩ := exists_of_any hx
  have hp := Expr.standsIn_chain e []
  obtain ⟨y, hy, hstands, hwhole⟩ := (whole_of_segments he hp hs (by decide) persons person {}).2 b hb
  cases hx.symm.trans hy
  exact ⟨e, _, b, x, he, hp, hs, hb, hx, hstands, hwhole, eq_of_beq hpath⟩

end FilterGuard
