import FilterGuard.Proofs.Adjacent
import FilterGuard.Proofs.Following
import FilterGuard.Proofs.Limits
import FilterGuard.Proofs.Renaming
import Mathlib.Data.List.Basic

/-!
# Chains of filters

Filters in parentheses, with `and` between all of them or with `or`, are a filter again.
The parser reads such a chain in a loop, the binder takes its operators one by one, and
the tree puts them all in one place, so it needs room for one level more than its
filters do, however many they are.
-/

namespace FilterGuard
open Token (Breaks Spells breaks_cons break_space break_openParen break_closeParen)

/-- A filter on its way from the text to the tree. -/
structure Clause where
  text : String
  tokens : List Token
  expr : Expr
  tree : Tree

namespace Clause

/-- An expression with those of further filters behind it, from left to right. -/
def joinExprs (op : BinaryOp) (left : Expr) (clauses : List Clause) : Expr :=
  clauses.foldl (fun left c => .binary op left c.expr) left

def joinBounds (op : BinaryOp) (left : Bound) (clauses : List Clause) : Bound :=
  clauses.foldl (fun left c => .binary op left c.tree.bound) left

end Clause

/-! ## Parsing -/

namespace Parsing
open Grammar

/-- Whether a reader takes `ts` for `e` wherever nothing more belongs to a level. -/
def Takes (k : Nat) (p : Parse Expr) (ts : List Token) (e : Expr) : Prop :=
  ∀ rest, Stops k rest → p (ts ++ rest) = .ok (e, rest)

variable {p : Parse Expr} {join? : Token → Option Join} {k : Nat}

theorem Takes.leftAssoc {ts : List Token} {e : Expr} (h : Takes k p ts e) (hj : Agrees join? k) :
    Takes (k + 1) (leftAssoc p join?) ts e :=
  fun rest hr => (ok_bind (h rest (hr.mono (Nat.le_succ k))) _).trans (chain_stop hj _ e hr)

def enclosed (ts : List Token) : List Token :=
  ⟨.openParen, "(", 0⟩ :: (ts ++ [⟨.closeParen, ")", 0⟩])

def joiner (op : BinaryOp) : Token :=
  ⟨.identifier op.symbol, op.symbol, 0⟩

/-- What stands behind the first of some filters in parentheses. -/
def continued (op : BinaryOp) (clauses : List Clause) : List Token :=
  clauses.flatMap fun c => joiner op :: enclosed c.tokens

section
variable {op : BinaryOp} (hop : Operator k (joiner op) (.binary op)) (hj : Agrees join? k)
include hop

theorem stops_continued (clauses : List Clause) : Stops k (continued op clauses) := by
  cases clauses with
  | nil => trivial
  | cons c clauses => exact stops_operator hop _

include hj

theorem chain_continued : ∀ {clauses : List Clause} {fuel : Nat} {left : Expr},
    (∀ c ∈ clauses, Takes k p (enclosed c.tokens) c.expr) → (continued op clauses).length ≤ fuel →
    chain p join? fuel left (continued op clauses) = .ok (Clause.joinExprs op left clauses, [])
  | [], fuel, left, _, _ => chain_stop hj fuel left trivial
  | c :: clauses, fuel, left, h, hf => by
    obtain ⟨hc, hcs⟩ := List.forall_mem_cons.mp h
    have htokens : continued op (c :: clauses) = joiner op :: (enclosed c.tokens ++ continued op clauses) := rfl
    rw [htokens] at hf ⊢
    simp only [List.length_cons, List.length_append] at hf
    obtain ⟨fuel, rfl⟩ : ∃ f, fuel = f + 1 := ⟨fuel - 1, by omega⟩
    rw [chain, (hj _ _).mpr hop]
    exact (ok_bind (hc _ (stops_continued hop clauses)) _).trans (chain_continued hcs (by omega))

theorem leftAssoc_continued {ts : List Token} {e : Expr} (h : Takes k p (enclosed ts) e) {clauses : List Clause}
    (hc : ∀ c ∈ clauses, Takes k p (enclosed c.tokens) c.expr) :
    leftAssoc p join? (enclosed ts ++ continued op clauses) = .ok (Clause.joinExprs op e clauses, []) :=
  (ok_bind (h _ (stops_continued hop clauses)) _).trans (chain_continued hop hj hc (Nat.le_refl _))

end

theorem takes_enclosed {limit : Nat} {ts : List Token} {e : Expr} (h : Expr.ofTokens limit ts = .ok e) :
    Takes 0 (operand (limit + 1) limit) (enclosed ts) e := by
  intro rest _
  rw [enclosed, List.cons_append, List.append_assoc]
  exact operand_enclosed h rfl rfl rest

/-- Expressions in parentheses with a logical operator between them take one level more,
and the operator associates to the left. -/
theorem ofTokens_joined {op : BinaryOp} (hop : op.isLogical = true) {limit : Nat} {ts : List Token} {e : Expr}
    (h : Expr.ofTokens limit ts = .ok e) {clauses : List Clause}
    (hc : ∀ c ∈ clauses, Expr.ofTokens limit c.tokens = .ok c.expr) :
    Expr.ofTokens (limit + 1) (enclosed ts ++ continued op clauses) = .ok (Clause.joinExprs op e clauses) := by
  have hand := fun {ts e} (h : Expr.ofTokens limit ts = .ok e) =>
    (((takes_enclosed h).leftAssoc agrees_multiplicative).leftAssoc agrees_additive).leftAssoc agrees_comparison
  have hor := fun {ts e} (h : Expr.ofTokens limit ts = .ok e) => (hand h).leftAssoc agrees_and
  refine ofTokens_iff.mpr ?_
  cases op with
  | or =>
    have hop : Operator 4 (joiner .or) (.binary .or) := ⟨"or", .head _, by decide⟩
    exact leftAssoc_continued hop agrees_or (hor h) fun c hm => hor (hc c hm)
  | and =>
    have hop : Operator 3 (joiner .and) (.binary .and) := ⟨"and", .head _, by decide⟩
    have hp := leftAssoc_continued hop agrees_and (hand h) fun c hm => hand (hc c hm)
    exact (ok_bind hp _).trans (chain_stop agrees_or _ _ trivial)
  | _ => cases hop

end Parsing

/-! ## Texts -/

section
open Parsing (enclosed joiner continued)

theorem spells_enclosed {cs : List Char} {ts : List Token} (h : Spells cs (ts.map Token.kind)) :
    Spells ('(' :: (cs ++ [')'])) ((enclosed ts).map Token.kind) := by
  have hclose : Spells [')'] [.closeParen] :=
    Token.spells_of_readFrom (show Token.readFrom 0 0 [')'] = .ok [⟨.closeParen, ")", 0⟩] from rfl)
  have hcs := (h.append (breaks_cons break_closeParen []) hclose).openParen
  simpa [enclosed] using hcs

/-- The text between two filters. -/
def between (op : BinaryOp) : List Char :=
  ' ' :: (op.symbol.toList ++ [' '])

theorem spells_between {op : BinaryOp} (hop : op.isLogical = true) : Spells (between op) [(joiner op).kind] := by
  cases op with
  | and =>
    exact Token.spells_of_readFrom
      (show Token.readFrom 0 0 [' ', 'a', 'n', 'd', ' '] = .ok [⟨.identifier "and", "and", 1⟩] from rfl)
  | or =>
    exact Token.spells_of_readFrom
      (show Token.readFrom 0 0 [' ', 'o', 'r', ' '] = .ok [⟨.identifier "or", "or", 1⟩] from rfl)
  | _ => cases hop

/-- The text behind the first of some filters. -/
def continuedText (op : BinaryOp) (clauses : List Clause) : List Char :=
  clauses.flatMap fun c => between op ++ '(' :: (c.text.toList ++ [')'])

theorem breaks_continuedText (op : BinaryOp) (clauses : List Clause) : Breaks (continuedText op clauses) := by
  cases clauses with
  | nil => exact nofun
  | cons c clauses => exact breaks_cons break_space _

theorem spells_continuedText {op : BinaryOp} (hop : op.isLogical = true) : ∀ {clauses : List Clause},
    (∀ c ∈ clauses, Token.read c.text = .ok c.tokens) →
    Spells (continuedText op clauses) ((continued op clauses).map Token.kind)
  | [], _ => fun _ => ⟨[], rfl, rfl⟩
  | c :: clauses, h => by
    obtain ⟨hc, hcs⟩ := List.forall_mem_cons.mp h
    have hclause := spells_enclosed (Token.spells_of_readFrom hc)
    have hfirst := (spells_between hop).append (breaks_cons break_openParen _) hclause
    have hall := hfirst.append (breaks_continuedText op clauses) (spells_continuedText hop hcs)
    simpa [continuedText, continued] using hall

theorem intercalate_cons {α : Type} (sep x : List α) (xs : List (List α)) :
    sep.intercalate (x :: xs) = x ++ xs.flatMap (sep ++ ·) := by
  induction xs generalizing x with
  | nil => simp
  | cons y xs ih => rw [List.intercalate_cons_cons, ih]; simp

/-- Texts in parentheses with an operator between them. -/
def joinTexts (op : BinaryOp) (texts : List String) : String :=
  (" " ++ op.symbol ++ " ").intercalate (texts.map fun text => "(" ++ text ++ ")")

theorem toList_joinTexts (op : BinaryOp) (c : Clause) (clauses : List Clause) :
    (joinTexts op ((c :: clauses).map Clause.text)).toList =
      '(' :: (c.text.toList ++ [')']) ++ continuedText op clauses := by
  rw [joinTexts, String.toList_intercalate, List.map_cons, List.map_cons, List.map_cons, intercalate_cons]
  simp [continuedText, between, List.flatMap_map]

end

/-! ## Binding -/

namespace Binding

/-- What is boolean in one place is in another. -/
theorem requireBoolean_elsewhere {place : BooleanPlace} {x : Typed} (h : requireBoolean place x = .ok ())
    (place' : BooleanPlace) : requireBoolean place' x = .ok () := by
  unfold requireBoolean at h ⊢
  split at h
  · rfl
  · next t _ =>
    cases ht : t.isBoolean with
    | true => rfl
    | false =>
      rw [ht] at h
      cases h

variable {schema : Schema} {type : Element} {options : Options}

theorem filterMeaning_binary {op : BinaryOp} (hop : op.isLogical = true) {left right : Expr} {b c : Bound}
    (hl : filterMeaning schema type options left = .ok b) (hr : filterMeaning schema type options right = .ok c) :
    filterMeaning schema type options (.binary op left right) = .ok (.binary op b c) := by
  obtain ⟨x, hx, hl⟩ := bind_ok hl
  obtain ⟨_, hxb, hl⟩ := bind_ok hl
  obtain ⟨y, hy, hr⟩ := bind_ok hr
  obtain ⟨_, hyb, hr⟩ := bind_ok hr
  cases hl
  cases hr
  have hxy : combine ⟨schema, .entity type.fullName, options⟩ op x y = .ok (truth (.binary op x.node y.node)) := by
    rw [combine, if_pos hop, requireBoolean_elsewhere hxb, requireBoolean_elsewhere hyb]
    rfl
  rw [filterMeaning, meaning, ok_bind hx, ok_bind hy, ok_bind hxy]
  rfl

end Binding

namespace Clause
open Binding (filterMeaning)

/-- Whether a filter has come to its tree. -/
structure Accepted (schema : Schema) (type : Element) (options : Options) (c : Clause) : Prop where
  read : Token.read c.text = .ok c.tokens
  parse : Expr.ofTokens options.maxDepth c.tokens = .ok c.expr
  bind : Binding.bind schema type options c.expr = .ok c.tree.bound
  grow : Tree.ofBound c.text c.tree.bound schema options = .ok c.tree

theorem exists_of_ofText {text type : String} {schema : Schema} {options : Options} {t : Tree}
    (h : Tree.ofText text schema type options = .ok t) :
    ∃ e c, schema.requireType type = .ok e ∧ Accepted schema e options c ∧ c.text = text ∧ c.tree = t := by
  obtain ⟨e, he, hb, ht⟩ := Tree.ofText_ok h
  obtain ⟨x, hx, hb⟩ := bind_ok hb
  obtain ⟨ts, hts, hx⟩ := bind_ok hx
  exact ⟨e, ⟨text, ts, x, t⟩, he, ⟨hts, hx, hb, ht⟩, rfl, rfl⟩

/-- Whether an expression and what it is bound to fit on the left side of an operator
that has `limit` places below it. -/
structure Beside (schema : Schema) (type : Element) (options : Options) (limit : Nat) (e : Expr) (b : Bound) :
    Prop where
  meaning : filterMeaning schema type options e = .ok b
  nesting : (if e.isBinary then e.nesting else e.nesting + 1) ≤ limit
  nest : (if b.isBinary then b.nest else b.nest + 1) ≤ limit

theorem lt_of_beside {chained : Bool} {n limit : Nat} (h : (if chained then n else n + 1) ≤ limit) :
    n < limit + 1 := by
  split at h <;> omega

section
variable {schema : Schema} {type : Element} {options : Options} {op : BinaryOp} (hop : op.isLogical = true)

/-- The options under which filters are joined. -/
def deeper (options : Options) : Options :=
  { options with maxDepth := options.maxDepth + 1 }

theorem Accepted.meaning_deeper {c : Clause} (h : c.Accepted schema type options) :
    filterMeaning schema type (deeper options) c.expr = .ok c.tree.bound := by
  have hs : SettledUnless ExprError.IsDepth (Binding.bind schema type options c.expr)
      (Binding.bind schema type (deeper options) c.expr) :=
    Binding.settled_bind (Nat.le_succ options.maxDepth) c.expr
  rw [h.bind] at hs
  obtain ⟨_, _, hs⟩ | hs := hs
  · cases hs
  · exact (Binding.bind_eq_ok_iff.mp hs).2

theorem Accepted.nest_lt {c : Clause} (h : c.Accepted schema type options) : c.tree.bound.nest < options.maxDepth :=
  (Tree.ofBound_eq_ok_iff.mp h.grow).1

theorem Accepted.beside {c : Clause} (h : c.Accepted schema type options) :
    Beside schema type (deeper options) options.maxDepth c.expr c.tree.bound := by
  have hn := Binding.nesting_of_bind h.bind
  have hb := h.nest_lt
  exact ⟨h.meaning_deeper, by split <;> omega, by split <;> omega⟩

include hop

theorem Beside.binary {e : Expr} {b : Bound} (h : Beside schema type (deeper options) options.maxDepth e b)
    {c : Clause} (hc : c.Accepted schema type options) :
    Beside schema type (deeper options) options.maxDepth (.binary op e c.expr) (.binary op b c.tree.bound) where
  meaning := Binding.filterMeaning_binary hop h.meaning hc.meaning_deeper
  nesting := Nat.max_le.mpr ⟨h.nesting, Binding.nesting_of_bind hc.bind⟩
  nest := Nat.max_le.mpr ⟨h.nest, hc.nest_lt⟩

theorem Beside.joined : ∀ {clauses : List Clause} {e : Expr} {b : Bound},
    Beside schema type (deeper options) options.maxDepth e b → (∀ c ∈ clauses, c.Accepted schema type options) →
    Beside schema type (deeper options) options.maxDepth (joinExprs op e clauses) (joinBounds op b clauses)
  | [], _, _, h, _ => h
  | c :: clauses, e, b, h, hc => by
    obtain ⟨hc, hcs⟩ := List.forall_mem_cons.mp hc
    have hj := Beside.joined (h.binary hop hc) hcs
    exact hj

end

/-! ## Inventories -/

theorem operatorNames_joinBounds (op : BinaryOp) : ∀ (clauses : List Clause) (b : Bound),
    (joinBounds op b clauses).operatorNames = List.replicate clauses.length op.symbol ++
      (b.operatorNames ++ clauses.flatMap fun c => c.tree.bound.operatorNames)
  | [], b => by simp [joinBounds]
  | c :: clauses, b => by
    have ih := operatorNames_joinBounds op clauses (.binary op b c.tree.bound)
    rw [joinBounds] at ih
    rw [joinBounds, List.foldl_cons, ih, Bound.operatorNames, List.length_cons, List.replicate_succ']
    simp

/-- The operators around an expression do not change its properties. -/
theorem properties_around (b : Bound) : ∀ (scope : Option String) (around around' : List String),
    (b.leaves scope around).filterMap Leaf.property = (b.leaves scope around').filterMap Leaf.property := by
  induction b using Bound.nodeInduction with
  | convert source target ih => exact ih
  | unary op operand ih => exact fun scope _ _ => ih scope _ _
  | binary op left right ihl ihr =>
    intro scope around around'
    simp only [Bound.leaves, List.filterMap_append]
    rw [ihl scope _ (op.symbol :: around'), ihr scope _ (op.symbol :: around')]
  | within item candidates ihi ihc =>
    intro scope around around'
    simp only [Bound.leaves, List.filterMap_append]
    rw [ihi scope _ ("in" :: around'), ihc scope _ ("in" :: around')]
  | quantified quantifier source v body ih => exact fun scope _ _ => ih _ _ _
  | _ => exact fun _ _ _ => rfl

def propertiesOf (b : Bound) : List String :=
  (b.leaves none []).filterMap Leaf.property

theorem propertiesOf_joinBounds (op : BinaryOp) : ∀ (clauses : List Clause) (b : Bound),
    propertiesOf (joinBounds op b clauses) =
      propertiesOf b ++ clauses.flatMap fun c => propertiesOf c.tree.bound
  | [], b => by simp [joinBounds]
  | c :: clauses, b => by
    have hb : propertiesOf (.binary op b c.tree.bound) = propertiesOf b ++ propertiesOf c.tree.bound := by
      rw [propertiesOf, Bound.leaves, List.filterMap_append, properties_around b none _ [],
        properties_around c.tree.bound none _ []]
      rfl
    have ih := propertiesOf_joinBounds op clauses (.binary op b c.tree.bound)
    rw [joinBounds] at ih
    rw [joinBounds, List.foldl_cons, ih, hb, List.flatMap_cons, List.append_assoc]

/-! ## Accepted filters -/

section
variable {schema : Schema} {type : Element} {options : Options} {op : BinaryOp} (hop : op.isLogical = true)
  {first : Clause} {clauses : List Clause} (h : ∀ c ∈ first :: clauses, c.Accepted schema type options)
include hop h

theorem parse_joined : Expr.parse (joinTexts op ((first :: clauses).map text)) (deeper options).maxDepth =
    .ok (joinExprs op first.expr clauses) := by
  obtain ⟨hf, hcs⟩ := List.forall_mem_cons.mp h
  have hspells := (spells_enclosed (Token.spells_of_readFrom hf.read)).append (breaks_continuedText op clauses)
    (spells_continuedText hop fun c hc => (hcs c hc).read)
  rw [← toList_joinTexts, ← List.map_append] at hspells
  obtain ⟨us, hread, hus⟩ := hspells 0
  have hts := Parsing.ofTokens_joined hop hf.parse fun c hc => (hcs c hc).parse
  exact (ok_bind hread _).trans (Parsing.ofTokens_alike hus hts)

theorem beside_joined : Beside schema type (deeper options) options.maxDepth (joinExprs op first.expr clauses)
    (joinBounds op first.tree.bound clauses) := by
  obtain ⟨hf, hcs⟩ := List.forall_mem_cons.mp h
  exact hf.beside.joined hop hcs

theorem bind_joined : Binding.bind schema type (deeper options) (joinExprs op first.expr clauses) =
    .ok (joinBounds op first.tree.bound clauses) := by
  have hb := beside_joined hop h
  exact Binding.bind_eq_ok_iff.mpr ⟨lt_of_beside hb.nesting, hb.meaning⟩

theorem nest_joined : (joinBounds op first.tree.bound clauses).nest < (deeper options).maxDepth :=
  lt_of_beside (beside_joined hop h).nest

end

theorem inventory_of_ofBound {expression : String} {b : Bound} {schema : Schema} {options : Options} {t : Tree}
    (h : Tree.ofBound expression b schema options = .ok t) :
    t.inventory.operators = b.operatorNames ∧ t.inventory.properties = propertiesOf b :=
  ⟨Tree.operators_eq (Tree.has_ofBound h), Tree.properties_eq (Tree.has_ofBound h)⟩

theorem exists_of_mapM {schema : Schema} {type : String} {options : Options} :
    ∀ {texts : List String} {trees : List Tree}, texts.mapM (Tree.ofText · schema type options) = .ok trees →
    ∀ {e : Element}, schema.requireType type = .ok e →
    ∃ clauses : List Clause, (∀ c ∈ clauses, c.Accepted schema e options) ∧ clauses.map text = texts ∧
      clauses.map tree = trees
  | [], trees, h, _, _ => by
    cases h
    exact ⟨[], nofun, rfl, rfl⟩
  | text :: texts, trees, h, e, he => by
    rw [List.mapM_cons] at h
    obtain ⟨t, ht, h⟩ := bind_ok h
    obtain ⟨trees, hts, h⟩ := bind_ok h
    cases h
    obtain ⟨e', c, he', hc, rfl, rfl⟩ := exists_of_ofText ht
    cases he.symm.trans he'
    obtain ⟨clauses, hcs, rfl, rfl⟩ := exists_of_mapM hts he
    exact ⟨c :: clauses, List.forall_mem_cons.mpr ⟨hc, hcs⟩, rfl, rfl⟩

end Clause

/-- Accepted filters in parentheses with `and` between them, or with `or`, are accepted
under the next limit, however many they are. There is one operator less than there are
filters, and the operators and properties of the filters stand behind in their order. -/
theorem Tree.ofText_joined {op : BinaryOp} (hop : op.isLogical = true) {schema : Schema} {type : String}
    {options : Options} {texts : List String} (hne : texts ≠ []) {trees : List Tree}
    (h : texts.mapM (ofText · schema type options) = .ok trees) :
    ∃ t, ofText (joinTexts op texts) schema type { options with maxDepth := options.maxDepth + 1 } = .ok t ∧
      t.inventory.operators = List.replicate (texts.length - 1) op.symbol ++
        trees.flatMap (fun t => t.inventory.operators) ∧
      t.inventory.properties = trees.flatMap fun t => t.inventory.properties := by
  obtain ⟨e, he⟩ : ∃ e, schema.requireType type = .ok e := by
    cases texts with
    | nil => exact absurd rfl hne
    | cons text texts =>
      rw [List.mapM_cons] at h
      obtain ⟨t, ht, -⟩ := bind_ok h
      obtain ⟨e, he, -⟩ := ofText_ok ht
      exact ⟨e, he⟩
  obtain ⟨clauses, hall, rfl, rfl⟩ := Clause.exists_of_mapM h he
  cases clauses with
  | nil => exact absurd rfl hne
  | cons first clauses =>
    have hb : bindText _ schema e (Clause.deeper options) = .ok _ :=
      (ok_bind (Clause.parse_joined hop hall) _).trans (Clause.bind_joined hop hall)
    obtain ⟨t, ht⟩ : ∃ t, ofBound (joinTexts op ((first :: clauses).map Clause.text)) _ schema _ = .ok t :=
      ⟨_, ofBound_eq_ok_iff.mpr ⟨Clause.nest_joined hop hall, rfl⟩⟩
    obtain ⟨hoperators, hproperties⟩ := Clause.inventory_of_ofBound ht
    refine ⟨t, (ofText_of_bindText he hb).trans ht, ?_, ?_⟩
    · have heach : (first :: clauses).flatMap (fun c => c.tree.inventory.operators) =
          (first :: clauses).flatMap fun c => c.tree.bound.operatorNames :=
        List.flatMap_congr fun c hc => (Clause.inventory_of_ofBound (hall c hc).grow).1
      rw [List.flatMap_map, heach, hoperators, Clause.operatorNames_joinBounds]
      simp
    · have heach : (first :: clauses).flatMap (fun c => c.tree.inventory.properties) =
          (first :: clauses).flatMap fun c => Clause.propertiesOf c.tree.bound :=
        List.flatMap_congr fun c hc => (Clause.inventory_of_ofBound (hall c hc).grow).2
      rw [List.flatMap_map, heach, hproperties, Clause.propertiesOf_joinBounds]
      rfl

/-- The first filter is a chain itself, and its operator is one of five. -/
theorem Tree.ofText_joined_users :
    ∃ trees t, ["email eq 'a' or name eq 'b'", "logins/any(x: x/name eq 'c')", "not (name eq null)"].mapM
        (ofText · users "User" { maxDepth := 4 }) = .ok trees ∧
      ofText "(email eq 'a' or name eq 'b') or (logins/any(x: x/name eq 'c')) or (not (name eq null))" users "User"
        { maxDepth := 5 } = .ok t ∧
      t.inventory.operators = ["or", "or", "or", "eq", "eq", "any", "eq", "not", "eq"] ∧
      t.inventory.properties = ["email", "name", "logins/name", "name"] := by
  have h : (["email eq 'a' or name eq 'b'", "logins/any(x: x/name eq 'c')", "not (name eq null)"].mapM
      (ofText · users "User" { maxDepth := 4 })).toOption.any (fun trees =>
        trees.flatMap (fun t => t.inventory.operators) == ["or", "eq", "eq", "any", "eq", "not", "eq"] &&
          trees.flatMap (fun t => t.inventory.properties) == ["email", "name", "logins/name", "name"]) = true := by
    decide +kernel
  obtain ⟨trees, htrees, hp⟩ := exists_of_any h
  obtain ⟨hoperators, hproperties⟩ := Bool.and_eq_true_iff.mp hp
  have hop : BinaryOp.isLogical .or = true := rfl
  obtain ⟨t, ht, ho, hp⟩ := ofText_joined hop (List.cons_ne_nil _ _) htrees
  have htext : joinTexts .or ["email eq 'a' or name eq 'b'", "logins/any(x: x/name eq 'c')", "not (name eq null)"] =
      "(email eq 'a' or name eq 'b') or (logins/any(x: x/name eq 'c')) or (not (name eq null))" := by
    decide +kernel
  rw [htext] at ht
  rw [eq_of_beq hoperators] at ho
  exact ⟨trees, t, htrees, ht, ho, hp.trans (eq_of_beq hproperties)⟩

end FilterGuard
