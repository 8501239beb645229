import FilterGuard.Proofs.Meaning

/-!
# Renaming variables

The variable of a quantifier can get another name. The occurrences that it binds are
renamed with it, and the new name must not be taken by another variable of the body
or by what the body refers to. Two expressions are alike if the names in them refer
to the same quantifiers, and that is what comes of a renaming.
-/

namespace FilterGuard
open Bound (instanceName)

namespace Expr

mutual

/-- The names that start a path. -/
def rootNames : Expr → List String
  | literal _ => []
  | list items => rootNamesEach items
  | name root => [root]
  | member owner _ => owner.rootNames
  | quantifiedEmpty _ source => source.rootNames
  | quantified _ source _ body => source.rootNames ++ body.rootNames
  | call _ args => rootNamesEach args
  | unary _ operand => operand.rootNames
  | binary _ left right => left.rootNames ++ right.rootNames
  | within item candidates => item.rootNames ++ candidates.rootNames

def rootNamesEach : List Expr → List String
  | [] => []
  | e :: es => e.rootNames ++ rootNamesEach es

end

mutual

/-- The variables of all quantifiers. -/
def boundNames : Expr → List String
  | literal _ | name _ => []
  | list items => boundNamesEach items
  | member owner _ => owner.boundNames
  | quantifiedEmpty _ source => source.boundNames
  | quantified _ source v body => source.boundNames ++ v :: body.boundNames
  | call _ args => boundNamesEach args
  | unary _ operand => operand.boundNames
  | binary _ left right => left.boundNames ++ right.boundNames
  | within item candidates => item.boundNames ++ candidates.boundNames

def boundNamesEach : List Expr → List String
  | [] => []
  | e :: es => e.boundNames ++ boundNamesEach es

end

mutual

/-- The expression with the free occurrences of `v` renamed to `w`. A quantifier with
the variable `v` hides it from its body, but not from what it ranges over. -/
def rename (v w : String) : Expr → Expr
  | literal value => literal value
  | list items => list (renameEach v w items)
  | name root => name (if root = v then w else root)
  | member owner segment => member (owner.rename v w) segment
  | quantifiedEmpty quantifier source => quantifiedEmpty quantifier (source.rename v w)
  | quantified quantifier source u body =>
    quantified quantifier (source.rename v w) u (if u = v then body else body.rename v w)
  | call function args => call function (renameEach v w args)
  | unary op operand => unary op (operand.rename v w)
  | binary op left right => binary op (left.rename v w) (right.rename v w)
  | within item candidates => within (item.rename v w) (candidates.rename v w)

def renameEach (v w : String) : List Expr → List Expr
  | [] => []
  | e :: es => e.rename v w :: renameEach v w es

end

/-- One variable of one quantifier renamed, anywhere in an expression. -/
inductive Renamed : Expr → Expr → Prop
  | here (quantifier : Quantifier) (source : Expr) {v w body} (hv : v ≠ instanceName) (hw : w ≠ instanceName)
      (hb : w ∉ body.boundNames) (hr : w ∉ body.rootNames) :
      Renamed (quantified quantifier source v body) (quantified quantifier source w (body.rename v w))
  | list {e e'} (front back : List Expr) (h : Renamed e e') :
      Renamed (list (front ++ e :: back)) (list (front ++ e' :: back))
  | member {owner owner'} (name : String) (h : Renamed owner owner') : Renamed (member owner name) (member owner' name)
  | quantifiedEmpty {source source'} (quantifier : Quantifier) (h : Renamed source source') :
      Renamed (quantifiedEmpty quantifier source) (quantifiedEmpty quantifier source')
  | source {source source'} (quantifier : Quantifier) (v : String) (body : Expr) (h : Renamed source source') :
      Renamed (quantified quantifier source v body) (quantified quantifier source' v body)
  | body {body body'} (quantifier : Quantifier) (source : Expr) (v : String) (h : Renamed body body') :
      Renamed (quantified quantifier source v body) (quantified quantifier source v body')
  | call {e e'} (function : String) (front back : List Expr) (h : Renamed e e') :
      Renamed (call function (front ++ e :: back)) (call function (front ++ e' :: back))
  | unary {operand operand'} (op : UnaryOp) (h : Renamed operand operand') :
      Renamed (unary op operand) (unary op operand')
  | left {left left'} (op : BinaryOp) (right : Expr) (h : Renamed left left') :
      Renamed (binary op left right) (binary op left' right)
  | right {right right'} (op : BinaryOp) (left : Expr) (h : Renamed right right') :
      Renamed (binary op left right) (binary op left right')
  | item {item item'} (candidates : Expr) (h : Renamed item item') :
      Renamed (within item candidates) (within item' candidates)
  | candidates {candidates candidates'} (item : Expr) (h : Renamed candidates candidates') :
      Renamed (within item candidates) (within item candidates')

/-! ## Expressions that are alike -/

/-- Whether two names mean the same variable of the quantifiers around, innermost
first, or are one name that none of them has. -/
def Refers : List (String × String) → String → String → Prop
  | [], n, n' => n = n'
  | (v, v') :: vs, n, n' => n = v ∧ n' = v' ∨ n ≠ v ∧ n' ≠ v' ∧ Refers vs n n'

mutual

/-- Expressions that differ in the names of variables only, given the variables of the
quantifiers around them. -/
inductive Alike : List (String × String) → Expr → Expr → Prop
  | literal {vs} (value : Literal) : Alike vs (literal value) (literal value)
  | list {vs items items'} (h : AlikeEach vs items items') : Alike vs (list items) (list items')
  | filtered {vs} : Alike vs (name instanceName) (name instanceName)
  | name {vs name name'} (hn : name ≠ instanceName) (hn' : name' ≠ instanceName) (h : Refers vs name name') :
      Alike vs (.name name) (.name name')
  | member {vs owner owner'} (name : String) (h : Alike vs owner owner') :
      Alike vs (member owner name) (member owner' name)
  | quantifiedEmpty {vs source source'} (quantifier : Quantifier) (h : Alike vs source source') :
      Alike vs (quantifiedEmpty quantifier source) (quantifiedEmpty quantifier source')
  | quantified {vs source source' body body'} (quantifier : Quantifier) (v v' : String)
      (hv : v' = instanceName ↔ v = instanceName) (hs : Alike vs source source')
      (hb : Alike ((v, v') :: vs) body body') :
      Alike vs (quantified quantifier source v body) (quantified quantifier source' v' body')
  | call {vs args args'} (function : String) (h : AlikeEach vs args args') :
      Alike vs (call function args) (call function args')
  | unary {vs operand operand'} (op : UnaryOp) (h : Alike vs operand operand') :
      Alike vs (unary op operand) (unary op operand')
  | binary {vs left left' right right'} (op : BinaryOp) (hl : Alike vs left left') (hr : Alike vs right right') :
      Alike vs (binary op left right) (binary op left' right')
  | within {vs item item' candidates candidates'} (hi : Alike vs item item')
      (hc : Alike vs candidates candidates') : Alike vs (within item candidates) (within item' candidates')

inductive AlikeEach : List (String × String) → List Expr → List Expr → Prop
  | nil {vs} : AlikeEach vs [] []
  | cons {vs e e' es es'} (h : Alike vs e e') (hs : AlikeEach vs es es') : AlikeEach vs (e :: es) (e' :: es')

end

mutual

theorem alike_self : ∀ (e : Expr) {vs : List (String × String)}, (∀ n ∈ e.rootNames, Refers vs n n) → Alike vs e e
  | literal value, _, _ => .literal value
  | list items, _, h => by
    rw [rootNames] at h
    exact .list (alikeEach_self items h)
  | name root, vs, h => by
    rw [rootNames] at h
    by_cases hn : root = instanceName
    · subst hn
      exact .filtered
    · exact .name hn hn (h root (List.mem_singleton.mpr rfl))
  | member owner segment, _, h => by
    rw [rootNames] at h
    exact .member segment (alike_self owner h)
  | quantifiedEmpty quantifier source, _, h => by
    rw [rootNames] at h
    exact .quantifiedEmpty quantifier (alike_self source h)
  | quantified quantifier source v body, vs, h => by
    rw [rootNames] at h
    obtain ⟨hs, hb⟩ := List.forall_mem_append.mp h
    refine .quantified quantifier v v .rfl (alike_self source hs) (alike_self body fun n hn => ?_)
    by_cases he : n = v
    · exact .inl ⟨he, he⟩
    · exact .inr ⟨he, he, hb n hn⟩
  | call function args, _, h => by
    rw [rootNames] at h
    exact .call function (alikeEach_self args h)
  | unary op operand, _, h => by
    rw [rootNames] at h
    exact .unary op (alike_self operand h)
  | binary op left right, _, h => by
    rw [rootNames] at h
    obtain ⟨hl, hr⟩ := List.forall_mem_append.mp h
    exact .binary op (alike_self left hl) (alike_self right hr)
  | within item candidates, _, h => by
    rw [rootNames] at h
    obtain ⟨hi, hc⟩ := List.forall_mem_append.mp h
    exact .within (alike_self item hi) (alike_self candidates hc)

theorem alikeEach_self : ∀ (es : List Expr) {vs : List (String × String)},
    (∀ n ∈ rootNamesEach es, Refers vs n n) → AlikeEach vs es es
  | [], _, _ => .nil
  | e :: es, _, h => by
    rw [rootNamesEach] at h
    obtain ⟨he, hes⟩ := List.forall_mem_append.mp h
    exact .cons (alike_self e he) (alikeEach_self es hes)

end

mutual

theorem alike_rename {v w : String} (hv : v ≠ instanceName) (hw : w ≠ instanceName) :
    ∀ (e : Expr) {vs : List (String × String)}, w ∉ e.boundNames →
    (∀ n ∈ e.rootNames, Refers vs n (if n = v then w else n)) → Alike vs e (e.rename v w)
  | literal value, _, _, _ => by
    rw [rename]
    exact .literal value
  | list items, _, hb, h => by
    rw [boundNames] at hb
    rw [rootNames] at h
    rw [rename]
    exact .list (alikeEach_rename hv hw items hb h)
  | name root, vs, _, h => by
    rw [rootNames] at h
    rw [rename]
    have hr := h root (List.mem_singleton.mpr rfl)
    by_cases hn : root = instanceName
    · subst hn
      rw [if_neg hv.symm]
      exact .filtered
    · refine .name hn ?_ hr
      split
      · exact hw
      · exact hn
  | member owner segment, _, hb, h => by
    rw [boundNames] at hb
    rw [rootNames] at h
    rw [rename]
    exact .member segment (alike_rename hv hw owner hb h)
  | quantifiedEmpty quantifier source, _, hb, h => by
    rw [boundNames] at hb
    rw [rootNames] at h
    rw [rename]
    exact .quantifiedEmpty quantifier (alike_rename hv hw source hb h)
  | quantified quantifier source u body, vs, hb, h => by
    rw [boundNames, List.mem_append, List.mem_cons, not_or, not_or] at hb
    obtain ⟨hbs, hu, hbb⟩ := hb
    rw [rootNames] at h
    obtain ⟨hs, hr⟩ := List.forall_mem_append.mp h
    rw [rename]
    refine .quantified quantifier u u .rfl (alike_rename hv hw source hbs hs) ?_
    split
    · next huv =>
      -- The body has the same names on both sides, and those of `u` mean this quantifier.
      refine alike_self body fun n hn => ?_
      by_cases he : n = u
      · exact .inl ⟨he, he⟩
      · have hn := hr n hn
        rw [if_neg (huv ▸ he)] at hn
        exact .inr ⟨he, he, hn⟩
    · next huv =>
      refine alike_rename hv hw body hbb fun n hn => ?_
      by_cases he : n = u
      · rw [if_neg (he ▸ huv)]
        exact .inl ⟨he, he⟩
      · refine .inr ⟨he, ?_, hr n hn⟩
        split
        · exact hu
        · exact he
  | call function args, _, hb, h => by
    rw [boundNames] at hb
    rw [rootNames] at h
    rw [rename]
    exact .call function (alikeEach_rename hv hw args hb h)
  | unary op operand, _, hb, h => by
    rw [boundNames] at hb
    rw [rootNames] at h
    rw [rename]
    exact .unary op (alike_rename hv hw operand hb h)
  | binary op left right, _, hb, h => by
    rw [boundNames, List.mem_append, not_or] at hb
    rw [rootNames] at h
    obtain ⟨hl, hr⟩ := List.forall_mem_append.mp h
    rw [rename]
    exact .binary op (alike_rename hv hw left hb.1 hl) (alike_rename hv hw right hb.2 hr)
  | within item candidates, _, hb, h => by
    rw [boundNames, List.mem_append, not_or] at hb
    rw [rootNames] at h
    obtain ⟨hi, hc⟩ := List.forall_mem_append.mp h
    rw [rename]
    exact .within (alike_rename hv hw item hb.1 hi) (alike_rename hv hw candidates hb.2 hc)

theorem alikeEach_rename {v w : String} (hv : v ≠ instanceName) (hw : w ≠ instanceName) :
    ∀ (es : List Expr) {vs : List (String × String)}, w ∉ boundNamesEach es →
    (∀ n ∈ rootNamesEach es, Refers vs n (if n = v then w else n)) → AlikeEach vs es (renameEach v w es)
  | [], _, _, _ => by
    rw [renameEach]
    exact .nil
  | e :: es, _, hb, h => by
    rw [boundNamesEach, List.mem_append, not_or] at hb
    rw [rootNamesEach] at h
    obtain ⟨he, hes⟩ := List.forall_mem_append.mp h
    rw [renameEach]
    exact .cons (alike_rename hv hw e hb.1 he) (alikeEach_rename hv hw es hb.2 hes)

end

/-- Names that are the same mean the same if the variables around are. -/
def Same (vs : List (String × String)) : Prop :=
  ∀ n, Refers vs n n

theorem Same.cons {vs : List (String × String)} (h : Same vs) (v : String) : Same ((v, v) :: vs) := by
  intro n
  by_cases he : n = v
  · exact .inl ⟨he, he⟩
  · exact .inr ⟨he, he, h n⟩

theorem alikeEach_insert {vs : List (String × String)} (hvs : Same vs) {e e' : Expr} (h : Alike vs e e')
    (front back : List Expr) : AlikeEach vs (front ++ e :: back) (front ++ e' :: back) := by
  induction front with
  | nil => exact .cons h (alikeEach_self back fun n _ => hvs n)
  | cons f front ih => exact .cons (alike_self f fun n _ => hvs n) ih

/-- Renaming a variable makes an expression that is alike. -/
theorem Renamed.alike {e e' : Expr} (h : Renamed e e') : ∀ {vs : List (String × String)}, Same vs → Alike vs e e' := by
  have self : ∀ {vs} (e : Expr), Same vs → Alike vs e e := fun e hvs => alike_self e fun n _ => hvs n
  induction h with
  | here quantifier source hv hw hb hr =>
    intro vs hvs
    refine .quantified quantifier _ _ (iff_of_false hw hv) (self source hvs) (alike_rename hv hw _ hb fun n hn => ?_)
    split
    · next he => exact .inl ⟨he, rfl⟩
    · next he => exact .inr ⟨he, fun hw => hr (hw ▸ hn), hvs n⟩
  | list front back _ ih => exact fun hvs => .list (alikeEach_insert hvs (ih hvs) front back)
  | member name _ ih => exact fun hvs => .member name (ih hvs)
  | quantifiedEmpty quantifier _ ih => exact fun hvs => .quantifiedEmpty quantifier (ih hvs)
  | source quantifier v body _ ih => exact fun hvs => .quantified quantifier v v .rfl (ih hvs) (self body (hvs.cons v))
  | body quantifier source v _ ih =>
    exact fun hvs => .quantified quantifier v v .rfl (self source hvs) (ih (hvs.cons v))
  | call function front back _ ih => exact fun hvs => .call function (alikeEach_insert hvs (ih hvs) front back)
  | unary op _ ih => exact fun hvs => .unary op (ih hvs)
  | left op right _ ih => exact fun hvs => .binary op (ih hvs) (self right hvs)
  | right op left _ ih => exact fun hvs => .binary op (self left hvs) (ih hvs)
  | item candidates _ ih => exact fun hvs => .within (ih hvs) (self candidates hvs)
  | candidates item _ ih => exact fun hvs => .within (self item hvs) (ih hvs)

theorem Alike.isBinary_eq {vs : List (String × String)} {e e' : Expr} (h : Alike vs e e') :
    e'.isBinary = e.isBinary := by
  cases h <;> rfl

mutual

/-- What is alike is nested alike. -/
theorem Alike.nesting_eq : ∀ {vs : List (String × String)} {e e' : Expr}, Alike vs e e' → e'.nesting = e.nesting
  | _, _, _, .literal _ => rfl
  | _, _, _, .list h => by rw [nesting, nesting, h.nesting_eq]
  | _, _, _, .filtered => rfl
  | _, _, _, .name .. => by rw [nesting, nesting]
  | _, _, _, .member _ h => by rw [nesting, nesting, h.nesting_eq]
  | _, _, _, .quantifiedEmpty _ h => by rw [nesting, nesting, h.nesting_eq]
  | _, _, _, .quantified _ _ _ _ hs hb => by rw [nesting, nesting, hs.nesting_eq, hb.nesting_eq]
  | _, _, _, .call _ h => by rw [nesting, nesting, h.nesting_eq]
  | _, _, _, .unary _ h => by rw [nesting, nesting, h.nesting_eq]
  | _, _, _, .binary _ hl hr => by rw [nesting, nesting, hl.nesting_eq, hr.nesting_eq, hl.isBinary_eq]
  | _, _, _, .within hi hc => by
    have hn := hc.nesting_eq
    rw [nesting.eq_def, nesting.eq_def]
    simp only [hi.nesting_eq]
    cases hc with
    | list h => simp only [h.nesting_eq]
    | _ => simp only [hn]

theorem AlikeEach.nesting_eq : ∀ {vs : List (String × String)} {es es' : List Expr}, AlikeEach vs es es' →
    nestingEach es' = nestingEach es
  | _, _, _, .nil => rfl
  | _, _, _, .cons h hs => by rw [nestingEach, nestingEach, h.nesting_eq, hs.nesting_eq]

end

end Expr

end FilterGuard
