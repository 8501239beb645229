import FilterGuard.Proofs.Inventory
import FilterGuard.Proofs.Paths

/-!
# Paths inside quantifiers

A node keeps one path, that of the collection of the innermost quantifier around
it, and what is accessed there is reported behind this path. A variable further
out, or the filtered instance, may stand for something else. Both are spelled out
here from the quantifiers around an operand, and compared.
-/

namespace FilterGuard

namespace Bound

/-- The variable that a path starts with. -/
def root? : Bound → Option String
  | convert source _ => source.root?
  | access _ (some owner) _ => owner.root?
  | var name _ => some name
  | _ => none

/-- The segments of a path behind its variable. -/
def segments : Bound → List String
  | convert source _ => source.segments
  | access _ none name => [name]
  | access _ (some owner) name => owner.segments ++ [name]
  | _ => []

def behind (front : String) (segments : List String) : String :=
  if segments = [] then front else underScope (some front) ("/".intercalate segments)

/-- Whether an expression is an access or a variable, under its conversions. -/
def isReference : Bound → Bool
  | convert source _ => source.isReference
  | access .. | var .. => true
  | _ => false

end Bound

/-- A quantifier around an operand: its variable, and what that ranges over. -/
structure Frame where
  var : Option String
  source : Bound

namespace Frame

def vars (fs : List Frame) : List String :=
  fs.flatMap fun f => f.var.toList

/-- What a variable stands for: the collection of the innermost quantifier that has
it, with the variable of that collection spelled out as well. -/
def standsFor : List Frame → String → String
  | [], _ => ""
  | f :: fs, name =>
    if name ≠ Bound.instanceName ∧ f.var = some name then
      Bound.behind (f.source.root?.elim "" (standsFor fs)) f.source.segments
    else standsFor fs name

/-- The collections of all quantifiers, each behind the next one out. -/
def collectionPath : List Frame → String
  | [] => ""
  | f :: fs => Bound.behind (collectionPath fs) f.source.segments

/-- The path that the nodes under quantifiers keep. -/
def scope : List Frame → Option String
  | [] => none
  | f :: fs => (f.source.path (scope fs)).or (scope fs)

/-- A root that is the variable of the innermost quantifier, whose collection has
the variable of the next one for its root, and so on out to the filtered instance. -/
def Chained : List Frame → Option String → Prop
  | [], root => root = some Bound.instanceName
  | f :: fs, root => root = f.var ∧ (∃ name ≠ Bound.instanceName, f.var = some name) ∧ Chained fs f.source.root?

/-- The quantifiers around operands of a filter that was read from a text. -/
def Orderly : List Frame → Prop
  | [] => True
  | f :: fs => f.source.IsSource (vars fs) ∧ Orderly fs

end Frame

/-- The path of an expression with its variable spelled out. -/
def Bound.expand (fs : List Frame) (b : Bound) : String :=
  behind (b.root?.elim "" (Frame.standsFor fs)) b.segments

/-! ## Paths -/

namespace Bound

variable {vars : List String}

theorem behind_inj {front other : String} {segments : List String} :
    behind front segments = behind other segments ↔ front = other := by
  refine ⟨fun h => ?_, fun h => h ▸ rfl⟩
  unfold behind underScope at h
  by_cases hs : segments = []
  · simpa only [hs, if_true] using h
  · simp only [hs, if_false] at h
    by_cases hf : front = ""
    · by_cases ho : other = ""
      · rw [hf, ho]
      · have hl := congrArg String.length h
        simp [hf, ho] at hl
    · by_cases ho : other = ""
      · have hl := congrArg String.length h
        simp [hf, ho] at hl
      · simpa [hf, ho] using h

theorem ownerSegments_eq {b : Bound} (h : b.IsOwner vars) : b.ownerSegments = b.segments := by
  induction h with
  | var => rfl
  | complex _ hn ih => simp [ownerSegments, segments, hn, ih]
  | navigation _ hn ih => simp [ownerSegments, segments, hn, ih]

theorem underScope_eq (scope : Option String) (path : String) :
    underScope scope path = underScope (some (scope.getD "")) path := by
  cases scope <;> rfl

theorem path_access (scope : Option String) (sort : Access) {owner : Bound} (ho : owner.IsOwner vars) (name : String) :
    (access sort (some owner) name).path scope =
      some (behind (scope.getD "") (access sort (some owner) name).segments) := by
  rw [path, Option.elim_some, ownerSegments_eq ho, underScope_eq, segments, behind, if_neg (by simp)]

theorem path_of_isPath {b : Bound} (h : b.IsPath vars) {front : String} (hf : front ≠ "") :
    b.path (some front) = some (behind front b.segments) := by
  cases h with
  | var => simp [path, behind, segments, Option.filter, hf]
  | access sort ho _ => exact path_access _ sort ho _

theorem behind_ne_empty {front : String} {segments : List String} {name : String} (hn : name ≠ "") :
    behind front (segments ++ [name]) ≠ "" := by
  have hp : "/".intercalate (segments ++ [name]) ≠ "" := by
    by_cases hs : segments = []
    · simpa [hs] using hn
    · rw [String.intercalate_append_of_ne_nil hs (by simp)]
      simp [hn]
  unfold behind underScope
  rw [if_neg (by simp)]
  by_cases hf : front = ""
  · simpa [hf] using hp
  · simp [hf]

theorem behind_ne_empty_of_front {front : String} (hf : front ≠ "") (segments : List String) :
    behind front segments ≠ "" := by
  unfold behind underScope
  by_cases hs : segments = []
  · simpa [hs] using hf
  · simp [hs, hf]

theorem IsOwner.root_eq {b : Bound} (h : b.IsOwner vars) :
    ∃ name, b.root? = some name ∧ (name = instanceName ∨ name ∈ vars) := by
  induction h with
  | var _ hv => exact ⟨_, rfl, hv⟩
  | complex _ _ ih => exact ih
  | navigation _ _ ih => exact ih

theorem IsPath.root_eq {b : Bound} (h : b.IsPath vars) :
    ∃ name, b.root? = some name ∧ (name = instanceName ∨ name ∈ vars) := by
  cases h with
  | var _ hv => exact ⟨_, rfl, hv⟩
  | access _ ho _ => exact ho.root_eq

/-- An access or a variable in a filter read from a text, under a scope. -/
theorem Orderly.reference {b : Bound} (h : b.Orderly vars) (hr : b.isReference = true) {front : String}
    (hf : front ≠ "") : (∃ name, b.root? = some name ∧ (name = instanceName ∨ name ∈ vars)) ∧
      b.path (some front) = some (behind front b.segments) := by
  induction h with
  | convert _ _ ih => exact ih hr
  | path hp => exact ⟨hp.root_eq, path_of_isPath hp hf⟩
  | _ => cases hr

end Bound

namespace Frame

theorem scope_eq : ∀ {f : Frame} {fs : List Frame}, Orderly (f :: fs) →
    scope (f :: fs) = some (collectionPath (f :: fs)) ∧ collectionPath (f :: fs) ≠ ""
  | ⟨v, source⟩, [], ⟨hs, _⟩ => by
    -- No variable is in scope outermost, so the collection has a segment of its own.
    cases hs with
    | var _ hv => cases hv
    | access sort ho hn =>
      refine ⟨?_, Bound.behind_ne_empty hn⟩
      rw [scope, scope, Bound.path_access none sort ho]
      rfl
  | f, g :: fs, ⟨hs, ho⟩ => by
    obtain ⟨hsc, hne⟩ := scope_eq ho
    have hp := Bound.path_of_isPath hs.isPath hne
    refine ⟨?_, Bound.behind_ne_empty_of_front hne _⟩
    rw [scope, hsc, hp]
    rfl

theorem elim_standsFor_of_chained : ∀ {fs : List Frame} {root : Option String}, Chained fs root →
    root.elim "" (standsFor fs) = collectionPath fs
  | [], _, rfl => rfl
  | f :: fs, _, ⟨rfl, ⟨name, hn, hv⟩, hc⟩ => by
    rw [hv, Option.elim_some, standsFor, if_pos ⟨hn, hv⟩, elim_standsFor_of_chained hc, collectionPath]

end Frame

/-! ## Operands -/

/-- The operands of a node with the quantifiers around them, innermost first, and
the one that the node reports as its property. -/
structure Site where
  frames : List Frame
  operands : List Bound
  subject : Option Bound

/-- What the node of a site shows: the texts of the operands, and a property. -/
def Site.shown (s : Site) : List String × Option String :=
  (s.operands.map (Bound.operandText (Frame.scope s.frames)),
    (s.subject.bind (Bound.path (Frame.scope s.frames))).filter (· ≠ ""))

/-- The sites of an expression in pre-order. -/
def Bound.sites (fs : List Frame) (b : Bound) : List Site :=
  match b with
  | convert source _ => source.sites fs
  | unary _ operand => operand.sites fs
  | binary _ left right => left.sites fs ++ right.sites fs
  | within item candidates => item.sites fs ++ candidates.sites fs
  | call _ args => [⟨fs, args, args.head?⟩]
  | quantified _ source v body => body.sites (⟨v, source⟩ :: fs)
  | list items => [⟨fs, items, none⟩]
  | b => [⟨fs, [b], b.subject?⟩]

def Node.operand? (n : Node) : Option (List String × Option String) :=
  match n.content with
  | .operator _ => none
  | .operand _ values property => some (values, property)

theorem shown_sites (b : Bound) : ∀ (fs : List Frame) (parent : Option Nat) (level id : Nat),
    ((Outline.ofBound (Frame.scope fs) b).list parent level id).filterMap Node.operand? =
      (b.sites fs).map Site.shown := by
  induction b using Bound.nodeInduction with
  | convert source target ih => exact ih
  | unary op operand ih => exact fun fs _ _ _ => ih fs _ _ _
  | binary op left right ihl ihr =>
    intro fs parent level id
    show List.filterMap Node.operand? (_ ++ _) = _
    rw [List.filterMap_append, ihl, ihr, Bound.sites, List.map_append]
  | within item candidates ihi ihc =>
    intro fs parent level id
    show List.filterMap Node.operand? (_ ++ _) = _
    rw [List.filterMap_append, ihi, ihc, Bound.sites, List.map_append]
  | quantified quantifier source v body ih => exact fun fs _ _ _ => ih (⟨v, source⟩ :: fs) _ _ _
  | access sort owner name =>
    intro fs parent level id
    rw [Outline.ofBound_access, ofLeaf_access]
    rfl
  | var name type =>
    intro fs parent level id
    rw [Outline.ofBound_var, ofLeaf_var]
    rfl
  | _ => exact fun _ _ _ _ => rfl

structure Site.Orderly (s : Site) : Prop where
  frames : Frame.Orderly s.frames
  operands : ∀ o ∈ s.operands, o.Orderly (Frame.vars s.frames)

theorem Site.orderly_of_mem {fs : List Frame} (hf : Frame.Orderly fs) {operands : List Bound}
    (ho : ∀ o ∈ operands, o.Orderly (Frame.vars fs)) (subject : Option Bound) :
    ∀ s ∈ [(⟨fs, operands, subject⟩ : Site)], s.Orderly :=
  List.forall_mem_singleton.mpr ⟨hf, ho⟩

theorem Bound.Orderly.sites {vars : List String} {b : Bound} (h : b.Orderly vars) : ∀ (fs : List Frame),
    vars = Frame.vars fs → Frame.Orderly fs → ∀ s ∈ b.sites fs, s.Orderly := by
  induction h with
  | const value =>
    intro fs hv hf
    subst hv
    exact Site.orderly_of_mem hf (List.forall_mem_singleton.mpr (.const value)) none
  | convert _ _ ih => exact ih
  | unary _ _ ih => exact ih
  | binary _ _ _ ihl ihr =>
    intro fs hv hf s hs
    rcases List.mem_append.mp hs with hs | hs
    · exact ihl fs hv hf s hs
    · exact ihr fs hv hf s hs
  | call _ ha _ =>
    intro fs hv hf
    subst hv
    exact Site.orderly_of_mem hf ha _
  | within _ _ ihi ihc =>
    intro fs hv hf s hs
    rcases List.mem_append.mp hs with hs | hs
    · exact ihi fs hv hf s hs
    · exact ihc fs hv hf s hs
  | @quantified _ _ source v _ hsource _ ih =>
    intro fs hv hf
    subst hv
    exact ih (⟨v, source⟩ :: fs) rfl ⟨hsource, hf⟩
  | list hi _ =>
    intro fs hv hf
    subst hv
    exact Site.orderly_of_mem hf hi none
  | path hp =>
    intro fs hv hf
    subst hv
    have ho := List.forall_mem_singleton.mpr (Bound.Orderly.path hp)
    cases hp with
    | var => exact Site.orderly_of_mem hf ho _
    | access => exact Site.orderly_of_mem hf ho _

/-- How an access or a variable is reported at a site. -/
structure Attributed (s : Site) (o : Bound) (root : String) : Prop where
  root_eq : o.root? = some root
  root_mem : root = Bound.instanceName ∨ root ∈ Frame.vars s.frames
  text : o.operandText (Frame.scope s.frames) = Bound.behind (Frame.collectionPath s.frames) o.segments
  property : s.subject = some o → s.shown.2 = some (Bound.behind (Frame.collectionPath s.frames) o.segments)
  expand_iff : o.operandText (Frame.scope s.frames) = o.expand s.frames ↔
    Frame.standsFor s.frames root = Frame.collectionPath s.frames
  expand_of_chained : Frame.Chained s.frames (some root) →
    o.operandText (Frame.scope s.frames) = o.expand s.frames

theorem attributed {s : Site} (hs : s.Orderly) (hf : s.frames ≠ []) {o : Bound} (ho : o ∈ s.operands)
    (hr : o.isReference = true) : ∃ root, Attributed s o root := by
  obtain ⟨f, fs, hfs⟩ := List.exists_cons_of_ne_nil hf
  obtain ⟨hscope, hne⟩ := Frame.scope_eq (hfs ▸ hs.frames)
  rw [← hfs] at hscope hne
  obtain ⟨⟨root, hroot, hmem⟩, hp⟩ := (hs.operands o ho).reference hr hne
  rw [← hscope] at hp
  have ht := operandText_of_path hp
  have he : o.operandText (Frame.scope s.frames) = o.expand s.frames ↔
      Frame.standsFor s.frames root = Frame.collectionPath s.frames := by
    rw [ht, Bound.expand, hroot, Option.elim_some, Bound.behind_inj]
    exact eq_comm
  refine ⟨root, hroot, hmem, ht, fun hsub => ?_, he, fun hc => ?_⟩
  · have hn := Bound.behind_ne_empty_of_front hne o.segments
    rw [Site.shown, hsub, Option.bind_some, hp]
    simp [Option.filter, hn]
  · exact he.mpr (Frame.elim_standsFor_of_chained hc)

/-- In the tree of an accepted text, nodes show the operands of the expression, and
every access and every variable in the body of a quantifier is reported behind the
path of the innermost collection. That is its own path if its variable stands for
this collection, as it does along a chain of variables. -/
theorem operands_attributed {filter : String} {schema : Schema} {type : String} {options : Options} {t : Tree}
    (h : Tree.ofText filter schema type options = .ok t) :
    t.preOrder.filterMap Node.operand? = (t.bound.sites []).map Site.shown ∧
    ∀ s ∈ t.bound.sites [], s.frames ≠ [] → ∀ o ∈ s.operands, o.isReference = true →
      ∃ root, Attributed s o root := by
  obtain ⟨_, -, hb, ht⟩ := Tree.ofText_ok h
  have hs := (orderly_of_bindText hb).sites [] rfl trivial
  refine ⟨?_, fun s hm hf o ho hr => attributed (hs s hm) hf ho hr⟩
  rw [Tree.preOrder_eq (Tree.has_ofBound ht)]
  exact shown_sites t.bound [] none 0 0

/-- A property of the filtered instance and a variable further out are reported
behind the innermost collection as well, which is not what they stand for. -/
theorem operands_misattributed :
    ∃ t, Tree.ofText "logins/any(s: name eq s/name and s/devices/any(d: s/name eq d/name))" users "User" {} = .ok t ∧
      t.preOrder.filterMap Node.property? =
        ["logins/name", "logins/name", "logins/devices/name", "logins/devices/name"] ∧
      (t.bound.sites []).flatMap (fun s => s.operands.map (Bound.expand s.frames)) =
        ["name", "logins/name", "logins/name", "logins/devices/name"] := by
  have h : (Tree.ofText "logins/any(s: name eq s/name and s/devices/any(d: s/name eq d/name))" users "User"
      {}).toOption.any (fun t =>
        t.preOrder.filterMap Node.property? ==
          ["logins/name", "logins/name", "logins/devices/name", "logins/devices/name"] &&
        (t.bound.sites []).flatMap (fun s => s.operands.map (Bound.expand s.frames)) ==
          ["name", "logins/name", "logins/name", "logins/devices/name"]) = true := by
    decide +kernel
  obtain ⟨t, ht, hp⟩ := exists_of_any h
  obtain ⟨hp, he⟩ := Bool.and_eq_true_iff.mp hp
  exact ⟨t, ht, eq_of_beq hp, eq_of_beq he⟩

theorem operands_attributed_devices :
    ∃ t, Tree.ofText "logins/any(s: s/devices/any(d: contains(d/NAME, s/name)))" users "User" {} = .ok t ∧
      t.preOrder.filterMap Node.operand? =
        [(["logins/devices/name", "logins/devices/name"], some "logins/devices/name")] ∧
      (t.bound.sites []).map Site.shown =
        [(["logins/devices/name", "logins/devices/name"], some "logins/devices/name")] ∧
      ∀ s ∈ t.bound.sites [], s.frames ≠ [] → ∀ o ∈ s.operands, o.isReference = true →
        ∃ root, Attributed s o root := by
  have h : (Tree.ofText "logins/any(s: s/devices/any(d: contains(d/NAME, s/name)))" users "User" {}).toOption.any
      (fun t => t.preOrder.filterMap Node.operand? ==
        [(["logins/devices/name", "logins/devices/name"], some "logins/devices/name")]) = true := by
    decide +kernel
  obtain ⟨t, ht, hp⟩ := exists_of_any h
  obtain ⟨hs, ha⟩ := operands_attributed ht
  exact ⟨t, ht, eq_of_beq hp, hs.symm.trans (eq_of_beq hp), ha⟩

end FilterGuard
