import FilterGuard.Proofs.Paths
import FilterGuard.Proofs.References
import FilterGuard.Proofs.Room

/-!
# The case of names

Functions are looked up by their names in lower case, properties by their exact
names first and up to case else, and variables by their exact names alone. What is
bound has the declared names. So under a schema that keeps properties apart up to
case, two spellings of an expression are bound to one and the same thing, as long as
no name comes to mean a variable, or no longer means one.
-/

namespace FilterGuard
open Bound (instanceName)
open Text (fold sameName)

namespace Expr

mutual

/-- Expressions that differ in the case of functions and of the segments of paths only,
given the variables of the quantifiers around them. -/
inductive Respelled : List String → Expr → Expr → Prop
  | literal {vars} (value : Literal) : Respelled vars (literal value) (literal value)
  | list {vars items items'} (h : RespelledEach vars items items') : Respelled vars (list items) (list items')
  | kept {vars} (root : String) : Respelled vars (name root) (name root)
  | root {vars root root'} (h : sameName root root' = true) (hr : root ∉ instanceName :: vars)
      (hr' : root' ∉ instanceName :: vars) : Respelled vars (name root) (name root')
  | member {vars owner owner' name name'} (hn : sameName name name' = true) (h : Respelled vars owner owner') :
      Respelled vars (member owner name) (member owner' name')
  | quantifiedEmpty {vars source source'} (quantifier : Quantifier) (h : Respelled vars source source') :
      Respelled vars (quantifiedEmpty quantifier source) (quantifiedEmpty quantifier source')
  | quantified {vars source source' body body'} (quantifier : Quantifier) (v : String)
      (hs : Respelled vars source source') (hb : Respelled (v :: vars) body body') :
      Respelled vars (quantified quantifier source v body) (quantified quantifier source' v body')
  | call {vars function function' args args'} (hf : sameName function function' = true)
      (h : RespelledEach vars args args') : Respelled vars (call function args) (call function' args')
  | unary {vars operand operand'} (op : UnaryOp) (h : Respelled vars operand operand') :
      Respelled vars (unary op operand) (unary op operand')
  | binary {vars left left' right right'} (op : BinaryOp) (hl : Respelled vars left left')
      (hr : Respelled vars right right') : Respelled vars (binary op left right) (binary op left' right')
  | within {vars item item' candidates candidates'} (hi : Respelled vars item item')
      (hc : Respelled vars candidates candidates') :
      Respelled vars (within item candidates) (within item' candidates')

inductive RespelledEach : List String → List Expr → List Expr → Prop
  | nil {vars} : RespelledEach vars [] []
  | cons {vars e e' es es'} (h : Respelled vars e e') (hs : RespelledEach vars es es') :
      RespelledEach vars (e :: es) (e' :: es')

end

theorem Respelled.isBinary_eq {vars : List String} {e e' : Expr} (h : Respelled vars e e') :
    e'.isBinary = e.isBinary := by
  cases h <;> rfl

theorem RespelledEach.length_eq : ∀ {vars : List String} {es es' : List Expr}, RespelledEach vars es es' →
    es'.length = es.length
  | _, _, _, .nil => rfl
  | _, _, _, .cons _ h => congrArg (· + 1) h.length_eq

mutual

theorem Respelled.nesting_eq : ∀ {vars : List String} {e e' : Expr}, Respelled vars e e' → e'.nesting = e.nesting
  | _, _, _, .literal _ => rfl
  | _, _, _, .list h => by rw [nesting, nesting, h.nesting_eq]
  | _, _, _, .kept _ => rfl
  | _, _, _, .root .. => by rw [nesting, nesting]
  | _, _, _, .member _ h => by rw [nesting, nesting, h.nesting_eq]
  | _, _, _, .quantifiedEmpty _ h => by rw [nesting, nesting, h.nesting_eq]
  | _, _, _, .quantified _ _ hs hb => by rw [nesting, nesting, hs.nesting_eq, hb.nesting_eq]
  | _, _, _, .call _ h => by rw [nesting, nesting, h.nesting_eq]
  | _, _, _, .unary _ h => by rw [nesting, nesting, h.nesting_eq]
  | _, _, _, .binary _ hl hr => by rw [nesting, nesting, hl.nesting_eq, hr.nesting_eq, hl.isBinary_eq]
  | _, _, _, .within hi hc => by
    have hn := hc.nesting_eq
    rw [nesting.eq_def, nesting.eq_def]
    simp only [hi.nesting_eq]
    cases hc with
    | list h => simp only [h.nesting_eq]
    | _ => simp only [hn]

theorem RespelledEach.nesting_eq : ∀ {vars : List String} {es es' : List Expr}, RespelledEach vars es es' →
    nestingEach es' = nestingEach es
  | _, _, _, .nil => rfl
  | _, _, _, .cons h hs => by rw [nestingEach, nestingEach, h.nesting_eq, hs.nesting_eq]

end

end Expr

/-! ## Lookups -/

theorem Text.sameName_congr {name name' : String} (h : sameName name name' = true) (other : String) :
    sameName other name' = sameName other name := by
  rw [sameName, sameName, sameName_iff.mp h]

theorem Signature.find?_congr {name name' : String} (h : sameName name name' = true) : find? name' = find? name := by
  rw [find?, find?, Text.sameName_iff.mp h]

namespace Element

/-- No two properties have the same name up to case. -/
def Distinct (e : Element) : Prop :=
  (e.properties.map fun p => fold p.name).Nodup

theorem filter_sameName (name : String) : ∀ {ps : List Property}, (ps.map fun p => fold p.name).Nodup →
    ps.filter (fun p => sameName p.name name) = (ps.find? fun p => sameName p.name name).toList
  | [], _ => rfl
  | p :: ps, h => by
    obtain ⟨hp, hps⟩ := List.nodup_cons.mp h
    by_cases hn : sameName p.name name = true
    · have hrest : ps.filter (fun q => sameName q.name name) = [] := by
        refine List.filter_eq_nil_iff.mpr fun q hq he => hp (List.mem_map.mpr ⟨q, hq, ?_⟩)
        exact (Text.sameName_iff.mp he).trans (Text.sameName_iff.mp hn).symm
      simp [hn, hrest]
    · simp [hn, filter_sameName name hps]

/-- The exact spelling does not matter if there is only one property up to case. -/
theorem findProperty_ignoringCase {e : Element} (h : e.Distinct) (name : String) :
    e.findProperty name true = (e.properties.find? fun p => sameName p.name name).elim .missing .found := by
  have hf := filter_sameName name h
  unfold findProperty
  split
  · next p hp =>
    have hm : p ∈ e.properties.filter fun p => sameName p.name name := by
      have hn : p.name = name := by simpa using List.find?_some hp
      exact List.mem_filter.mpr ⟨List.mem_of_find?_eq_some hp, by simp [hn]⟩
    rw [hf, Option.mem_toList] at hm
    rw [hm]
    rfl
  · rw [if_pos rfl, hf]
    cases e.properties.find? fun p => sameName p.name name <;> rfl

end Element

/-- A schema in which every property has been declared, and under one name up to case. -/
structure Schema.Unambiguous (s : Schema) : Prop where
  closed : ∀ e ∈ s.elements, e.isOpen = false
  distinct : ∀ e ∈ s.elements, e.Distinct

namespace Binding

/-! ## Meanings -/

variable {ctx : Context}

theorem signature_congr {function function' : String} (h : sameName function function' = true) (count : Nat) :
    (signature function' count).toOption = (signature function count).toOption := by
  unfold signature
  rw [Signature.find?_congr h]
  cases Signature.find? function <;> rfl

section
variable (hc : ctx.options.ignoreCase = true) (hs : ctx.schema.Unambiguous)
include hc hs

theorem property_congr {name name' : String} (hn : sameName name name' = true) (owner : Bound) (type : String) :
    (property ctx owner type name').toOption = (property ctx owner type name).toOption := by
  unfold property
  cases he : ctx.schema.structuredType type with
  | none => rfl
  | some e =>
    have hm := Schema.mem_of_structuredType he
    have hd := hs.distinct e hm
    have hfind : e.findProperty name' true = e.findProperty name true := by
      rw [Element.findProperty_ignoringCase hd, Element.findProperty_ignoringCase hd]
      simp only [Text.sameName_congr hn]
    simp only [hc, hfind, hs.closed e hm]
    cases e.findProperty name true <;> rfl

theorem member_congr {name name' : String} (hn : sameName name name' = true) (owner : Typed) :
    (member ctx owner name').toOption = (member ctx owner name).toOption := by
  unfold member
  split
  · exact property_congr hc hs hn ..
  · exact property_congr hc hs hn ..
  · rfl

theorem resolve_congr {scope : Scope} {name name' : String} (h : sameName name name' = true)
    (hn : name ∉ instanceName :: scope.map Prod.fst) (hn' : name' ∉ instanceName :: scope.map Prod.fst) :
    (resolve ctx scope name').toOption = (resolve ctx scope name).toOption := by
  have unscoped : ∀ {name : String}, name ∉ instanceName :: scope.map Prod.fst →
      resolve ctx scope name = member ctx (filtered ctx) name := by
    intro name hn
    obtain ⟨hi, hv⟩ := not_or.mp (fun h => hn (List.mem_cons.mpr h))
    have hfind : scope.find? (fun v => v.1 = name) = none := by
      refine List.find?_eq_none.mpr fun v hm he => hv (List.mem_map.mpr ⟨v, hm, of_decide_eq_true he⟩)
    rw [resolve, if_neg hi, hfind]
  rw [unscoped hn, unscoped hn']
  exact member_congr hc hs h _

end

open Expr (Respelled RespelledEach)

mutual

theorem meaning_respelled (hc : ctx.options.ignoreCase = true) (hs : ctx.schema.Unambiguous) :
    ∀ {vars : List String} {e e' : Expr}, Respelled vars e e' → ∀ {scope : Scope}, scope.map Prod.fst = vars →
    (meaning ctx scope e').toOption = (meaning ctx scope e).toOption
  | _, _, _, .literal _, _, _ => rfl
  | _, _, _, .list h, _, hv => by
    rw [meaning, meaning]
    exact toOption_bind_congr (meanings_respelled hc hs h hv _ 0) fun _ => rfl
  | _, _, _, .kept _, _, _ => rfl
  | _, _, _, .root h hr hr', _, hv => by
    subst hv
    rw [meaning, meaning]
    exact resolve_congr hc hs h hr hr'
  | _, _, _, .member hn h, _, hv => by
    rw [meaning, meaning]
    exact toOption_bind_congr (meaning_respelled hc hs h hv) fun owner => member_congr hc hs hn owner
  | _, _, _, .quantifiedEmpty _ h, _, hv => by
    rw [meaning, meaning]
    exact toOption_bind_congr (meaning_respelled hc hs h hv) fun _ => rfl
  | _, _, _, .quantified _ v h hb, _, hv => by
    rw [meaning, meaning]
    refine toOption_bind_congr (meaning_respelled hc hs h hv) fun source => toOption_bind_congr rfl fun item => ?_
    exact toOption_bind_congr (meaning_respelled hc hs hb (congrArg (v :: ·) hv)) fun _ => rfl
  | _, _, _, .call hf h, _, hv => by
    rw [meaning, meaning, h.length_eq]
    refine toOption_bind_congr (signature_congr hf _) fun s => ?_
    exact toOption_bind_congr (meanings_respelled hc hs h hv _ 0) fun _ => rfl
  | _, _, _, .unary _ h, _, hv => by
    rw [meaning, meaning]
    exact toOption_bind_congr (meaning_respelled hc hs h hv) fun _ => rfl
  | _, _, _, .binary _ hl hr, _, hv => by
    rw [meaning, meaning]
    refine toOption_bind_congr (meaning_respelled hc hs hl hv) fun left => ?_
    exact toOption_bind_congr (meaning_respelled hc hs hr hv) fun _ => rfl
  | _, _, _, .within hi hcandidates, _, hv => by
    have hm := meaning_respelled hc hs hcandidates hv
    rw [meaning, meaning]
    refine toOption_bind_congr (meaning_respelled hc hs hi hv) fun subject => toOption_bind_congr rfl fun _ => ?_
    cases hcandidates with
    | list h => exact toOption_bind_congr (meanings_respelled hc hs h hv _ 0) fun _ => rfl
    | literal value => rfl
    | _ => exact toOption_bind_congr hm fun _ => rfl

theorem meanings_respelled (hc : ctx.options.ignoreCase = true) (hs : ctx.schema.Unambiguous) :
    ∀ {vars : List String} {es es' : List Expr}, RespelledEach vars es es' → ∀ {scope : Scope},
    scope.map Prod.fst = vars → ∀ (finish : Nat → Typed → Except ExprError Typed) (index : Nat),
    (meanings ctx scope finish index es').toOption = (meanings ctx scope finish index es).toOption
  | _, _, _, .nil, _, _, _, _ => rfl
  | _, _, _, .cons h hes, _, hv, finish, index => by
    rw [meanings, meanings]
    refine toOption_bind_congr (meaning_respelled hc hs h hv) fun x => toOption_bind_congr rfl fun y => ?_
    exact toOption_bind_congr (meanings_respelled hc hs hes hv finish (index + 1)) fun _ => rfl

end

theorem filterMeaning_respelled {schema : Schema} {type : Element} {options : Options} {e e' : Expr}
    (hc : options.ignoreCase = true) (hs : schema.Unambiguous) (he : Respelled [] e e') :
    (filterMeaning schema type options e').toOption = (filterMeaning schema type options e).toOption :=
  toOption_bind_congr (meaning_respelled hc hs he rfl) fun _ => rfl

end Binding

/-! ## Filters -/

/-- A tree does not depend on the text that its expression was read from. -/
theorem Tree.ofBound_expression (expression expression' : String) (b : Bound) (schema : Schema) (options : Options) :
    ofBound expression' b schema options =
      (ofBound expression b schema options).map fun t => { t with expression := expression' } := by
  unfold ofBound
  cases grow options.maxDepth .root b #[] <;> rfl

/-- Spelling names in another case does not change what an expression is bound to, nor
the tree of a filter, its inventory and its verdict. -/
theorem bind_respelled {schema : Schema} {type : Element} {options : Options} {e e' : Expr} {b : Bound}
    (hc : options.ignoreCase = true) (hs : schema.Unambiguous) (he : Expr.Respelled [] e e')
    (hb : Binding.bind schema type options e = .ok b) :
    Binding.bind schema type options e' = .ok b ∧
    ∀ {name filter filter' : String}, schema.requireType name = .ok type →
      Expr.parse filter options.maxDepth = .ok e → Expr.parse filter' options.maxDepth = .ok e' →
      Tree.ofText filter' schema name options =
        (Tree.ofText filter schema name options).map (fun t => { t with expression := filter' }) ∧
      ∀ rules, (Tree.ofText filter' schema name options).map (fun t => (t.inventory, Verdict.onTree t rules)) =
        (Tree.ofText filter schema name options).map fun t => (t.inventory, Verdict.onTree t rules) := by
  have hb' : Binding.bind schema type options e' = .ok b := by
    obtain ⟨hn, hm⟩ := Binding.bind_eq_ok_iff.mp hb
    refine Binding.bind_eq_ok_iff.mpr ⟨he.nesting_eq ▸ hn, ok_of_toOption ?_⟩
    rw [Binding.filterMeaning_respelled hc hs he, hm]
    rfl
  refine ⟨hb', fun {name filter filter'} hname hparse hparse' => ?_⟩
  have htree := Tree.ofText_of_bindText hname ((ok_bind hparse _).trans hb)
  have htree' := Tree.ofText_of_bindText hname ((ok_bind hparse' _).trans hb')
  rw [htree, htree', Tree.ofBound_expression filter filter']
  refine ⟨rfl, fun rules => ?_⟩
  rw [map_map]
  rfl

/-- `logins/any(x: x/name eq 'a') and contains(email, 'b')` with some of its names. -/
def loginFilter (logins name contains email : String) : Expr :=
  .binary .and
    (.quantified .any (.name logins) "x" (.binary .eq (.member (.name "x") name) (.literal (.string "a"))))
    (.call contains [.name email, .literal (.string "b")])

def isLoginFilter (logins name contains email : String) : Expr → Bool
  | .binary .and
      (.quantified .any (.name l) "x" (.binary .eq (.member (.name "x") n) (.literal (.string "a"))))
      (.call c [.name e, .literal (.string "b")]) =>
    l = logins && n = name && c = contains && e = email
  | _ => false

theorem eq_loginFilter {logins name contains email : String} {e : Expr}
    (h : isLoginFilter logins name contains email e = true) : e = loginFilter logins name contains email := by
  unfold isLoginFilter at h
  split at h
  · simp only [Bool.and_eq_true, decide_eq_true_eq] at h
    obtain ⟨⟨⟨rfl, rfl⟩, rfl⟩, rfl⟩ := h
    rfl
  · cases h

/-- The variable keeps its spelling, all other names have another one. -/
theorem bind_respelled_users :
    ∃ user b t, users.requireType "User" = .ok user ∧ users.Unambiguous ∧
      (loginFilter "logins" "name" "contains" "email").Respelled [] (loginFilter "LOGINS" "Name" "CONTAINS" "Email") ∧
      Binding.bind users user {} (loginFilter "logins" "name" "contains" "email") = .ok b ∧
      Binding.bind users user {} (loginFilter "LOGINS" "Name" "CONTAINS" "Email") = .ok b ∧
      Tree.ofText "logins/any(x: x/name eq 'a') and contains(email, 'b')" users "User" {} = .ok t ∧
      Tree.ofText "LOGINS/any(x: x/Name eq 'a') and CONTAINS(Email, 'b')" users "User" {} =
        .ok { t with expression := "LOGINS/any(x: x/Name eq 'a') and CONTAINS(Email, 'b')" } := by
  have ht : (Tree.ofText "logins/any(x: x/name eq 'a') and contains(email, 'b')" users "User" {}).toOption.any
      (fun t => t.inventory.properties == ["logins/name", "email"]) = true := by
    decide +kernel
  have hb : (users.requireType "User").toOption.any (fun user => (Binding.bind users user {}
      (loginFilter "logins" "name" "contains" "email")).toOption.any fun _ => true) = true := by
    decide +kernel
  have he : (Expr.parse "logins/any(x: x/name eq 'a') and contains(email, 'b')" 256).toOption.any
      (isLoginFilter "logins" "name" "contains" "email") = true := by
    decide +kernel
  have he' : (Expr.parse "LOGINS/any(x: x/Name eq 'a') and CONTAINS(Email, 'b')" 256).toOption.any
      (isLoginFilter "LOGINS" "Name" "CONTAINS" "Email") = true := by
    decide +kernel
  obtain ⟨t, ht, -⟩ := exists_of_any ht
  obtain ⟨user, hu, hb⟩ := exists_of_any hb
  obtain ⟨b, hb, -⟩ := exists_of_any hb
  obtain ⟨e, he, hp⟩ := exists_of_any he
  obtain ⟨e', he', hp'⟩ := exists_of_any he'
  have hs : users.Unambiguous := ⟨by decide, by unfold Element.Distinct; decide +kernel⟩
  have hr : (loginFilter "logins" "name" "contains" "email").Respelled []
      (loginFilter "LOGINS" "Name" "CONTAINS" "Email") :=
    .binary .and
      (.quantified .any "x" (.root (by decide) (by decide) (by decide))
        (.binary .eq (.member (by decide) (.kept "x")) (.literal _)))
      (.call (by decide) (.cons (.root (by decide) (by decide) (by decide)) (.cons (.literal _) .nil)))
  cases eq_loginFilter hp
  cases eq_loginFilter hp'
  obtain ⟨hb', htext⟩ := bind_respelled rfl hs hr hb
  obtain ⟨htree, -⟩ := htext hu he he'
  rw [ht] at htree
  exact ⟨user, b, t, hu, hs, hr, hb, hb', ht, htree⟩

end FilterGuard
