import FilterGuard.Expr.Parse
import FilterGuard.Proofs.Steps

/-!
# The grammar of expressions

Which sequences of tokens are expressions, said without a reader. There are five
levels of operators over operands; a level puts its operators between a left side
of its own and a right side of the next tighter level, so it associates to the
left.
-/

namespace FilterGuard.Grammar
open Parsing Text

/-- The operators of a level, tightest first, by how they are written. -/
def operators : Nat → List (String × Join)
  | 0 => [("mul", .binary .mul), ("div", .binary .div), ("divby", .binary .div), ("mod", .binary .mod)]
  | 1 => [("add", .binary .add), ("sub", .binary .sub)]
  | 2 =>
    [("eq", .binary .eq), ("ne", .binary .ne), ("gt", .binary .gt), ("ge", .binary .ge), ("lt", .binary .lt),
     ("le", .binary .le), ("has", .binary .has), ("in", .within)]
  | 3 => [("and", .binary .and)]
  | 4 => [("or", .binary .or)]
  | _ => []

def Operator (level : Nat) (t : Token) (join : Join) : Prop :=
  ∃ word, (word, join) ∈ operators level ∧ t.isKeyword word = true

def words : List (String × Literal) :=
  [("null", .null), ("true", .boolean true), ("false", .boolean false)]

/-- Whether a name can begin a path or a call. -/
def IsName (name : String) : Prop :=
  ∀ word ∈ ["not", "null", "true", "false"], sameName name word = false

mutual

/-- Level 0 is an operand, and level `k + 1` has the operators of level `k`. -/
inductive Level : Nat → List Token → Expr → Prop
  | operand {ts e} (h : Unary ts e) : Level 0 ts e
  | tighter {k ts e} (h : Level k ts e) : Level (k + 1) ts e
  | join {k l t r left right e} {f : Join} (hl : Level (k + 1) l left) (ht : Operator k t f) (hr : Level k r right)
      (he : e = f left right) : Level (k + 1) (l ++ t :: r) e

inductive Unary : List Token → Expr → Prop
  | not {t ts e} (ht : t.isKeyword "not" = true) (h : Unary ts e) : Unary (t :: ts) (.unary .not e)
  | minus {t ts e} (ht : t.kind = .minus) (h : Unary ts e) : Unary (t :: ts) (.unary .negate e)
  | primary {ts e} (h : Primary ts e) : Unary ts e

inductive Primary : List Token → Expr → Prop
  | literal {t value} (ht : t.kind = .literal value) : Primary [t] (.literal value)
  | word {t word value} (hw : (word, value) ∈ words) (ht : t.isKeyword word = true) : Primary [t] (.literal value)
  | callEmpty {t o c name} (ht : t.kind = .identifier name) (hn : IsName name) (ho : o.kind = .openParen)
      (hc : c.kind = .closeParen) : Primary [t, o, c] (.call name [])
  | call {t o ts c name args} (ht : t.kind = .identifier name) (hn : IsName name) (ho : o.kind = .openParen)
      (ha : Items ts args) (hc : c.kind = .closeParen) : Primary (t :: o :: (ts ++ [c])) (.call name args)
  | path {ts e} (h : Path ts e) : Primary ts e
  | parens {o ts c e} (ho : o.kind = .openParen) (h : Level 5 ts e) (hc : c.kind = .closeParen) :
      Primary (o :: (ts ++ [c])) e
  | list {o ts c items} (ho : o.kind = .openParen) (h : Items ts items) (hl : 2 ≤ items.length)
      (hc : c.kind = .closeParen) : Primary (o :: (ts ++ [c])) (.list items)

inductive Path : List Token → Expr → Prop
  | name {t name} (ht : t.kind = .identifier name) (hn : IsName name) : Path [t] (.name name)
  | member {ts owner s t name} (h : Path ts owner) (hs : s.kind = .slash) (ht : t.kind = .identifier name) :
      Path (ts ++ [s, t]) (.member owner name)
  | quantifiedEmpty {ts source s t o c} {quantifier : Quantifier} (h : Path ts source) (hs : s.kind = .slash)
      (ht : t.isKeyword quantifier.symbol = true) (ho : o.kind = .openParen) (hc : c.kind = .closeParen) :
      Path (ts ++ [s, t, o, c]) (.quantifiedEmpty quantifier source)
  | quantified {ts source s t o v k bs c var body} {quantifier : Quantifier} (h : Path ts source)
      (hs : s.kind = .slash) (ht : t.isKeyword quantifier.symbol = true) (ho : o.kind = .openParen)
      (hv : v.kind = .identifier var) (hk : k.kind = .colon) (hb : Level 5 bs body) (hc : c.kind = .closeParen) :
      Path (ts ++ s :: t :: o :: v :: k :: (bs ++ [c])) (.quantified quantifier source var body)

/-- Expressions with commas between them. -/
inductive Items : List Token → List Expr → Prop
  | one {ts e} (h : Level 5 ts e) : Items ts [e]
  | more {ts c rest e es} (h : Level 5 ts e) (hc : c.kind = .comma) (hi : Items rest es) :
      Items (ts ++ c :: rest) (e :: es)

end

abbrev Derives (ts : List Token) (e : Expr) : Prop := Level 5 ts e

/-! ## Words -/

theorem isKeyword_iff {t : Token} {word : String} :
    t.isKeyword word = true ↔ ∃ name, t.kind = .identifier name ∧ sameName name word = true := by
  unfold Token.isKeyword
  cases t.kind <;> simp

theorem identifier?_eq_some {t : Token} {name : String} : t.identifier? = some name ↔ t.kind = .identifier name := by
  unfold Token.identifier?
  cases t.kind <;> simp

/-- A table whose words are spelled as names are folded can be searched for a folded name. -/
theorem exists_word_iff {α : Type} {table : List (String × α)} (h : ∀ word ∈ table.map Prod.fst, fold word = word)
    {name : String} {a : α} :
    (∃ word, (word, a) ∈ table ∧ sameName name word = true) ↔ (fold name, a) ∈ table := by
  constructor
  · rintro ⟨word, hw, hn⟩
    have hf := h word (List.mem_map_of_mem (f := Prod.fst) hw)
    rw [sameName_iff, hf] at hn
    exact hn ▸ hw
  · exact fun ha => ⟨fold name, ha, sameName_iff.mpr (fold_fold name).symm⟩

theorem fold_operators (k : Nat) : ∀ word ∈ (operators k).map Prod.fst, fold word = word := by
  match k with
  | 0 | 1 | 2 | 3 | 4 => decide
  | _ + 5 => exact nofun

theorem operator_iff {k : Nat} {t : Token} {f : Join} :
    Operator k t f ↔ ∃ name, t.kind = .identifier name ∧ (fold name, f) ∈ operators k := by
  simp only [← exists_word_iff (fold_operators k)]
  constructor
  · rintro ⟨word, hw, ht⟩
    obtain ⟨name, ht, hn⟩ := isKeyword_iff.mp ht
    exact ⟨name, ht, word, hw, hn⟩
  · rintro ⟨name, ht, word, hw, hn⟩
    exact ⟨word, hw, isKeyword_iff.mpr ⟨name, ht, hn⟩⟩

/-- A word is an operator of one level only. -/
theorem level_unique {j k : Nat} {t : Token} {f g : Join} (hf : Operator j t f) (hg : Operator k t g) : j = k := by
  obtain ⟨name, ht, hf⟩ := operator_iff.mp hf
  obtain ⟨name', ht', hg⟩ := operator_iff.mp hg
  cases ht.symm.trans ht'
  have hlt : ∀ {i : Nat} {p : String × Join}, p ∈ operators i → i < 5 := by
    intro i p hp
    match i with
    | 0 | 1 | 2 | 3 | 4 => decide
    | _ + 5 => cases hp
  have hw : ∀ j < 5, ∀ k < 5, ∀ word ∈ (operators j).map Prod.fst, word ∈ (operators k).map Prod.fst → j = k := by
    decide
  have hwf := List.mem_map_of_mem (f := Prod.fst) hf
  have hwg := List.mem_map_of_mem (f := Prod.fst) hg
  exact hw j (hlt hf) k (hlt hg) _ hwf hwg

theorem ofWord?_eq_some_iff {ops : List BinaryOp} {word : String} {op : BinaryOp} :
    BinaryOp.ofWord? ops word = some op ↔ op ∈ ops ∧ fold word = op.symbol := by
  unfold BinaryOp.ofWord?
  constructor
  · intro h
    exact ⟨List.mem_of_find?_eq_some h, by simpa using List.find?_some h⟩
  · rintro ⟨hm, hw⟩
    cases hf : ops.find? fun op => fold word == op.symbol with
    | none => simpa [hw] using List.find?_eq_none.mp hf op hm
    | some op' =>
      have hw' : fold word = op'.symbol := by simpa using List.find?_some hf
      have hs := BinaryOp.ofSymbol?_symbol op
      rw [← hw, hw', BinaryOp.ofSymbol?_symbol] at hs
      exact hs

/-- Operators written with their symbols. -/
def spelled (ops : List BinaryOp) : List (String × Join) :=
  ops.map fun op => (op.symbol, .binary op)

theorem binaryJoin_iff {ofWord? : String → Option BinaryOp} {t : Token} {f : Join} :
    binaryJoin ofWord? t = some f ↔
      ∃ name, t.kind = .identifier name ∧ ∃ op, ofWord? name = some op ∧ Expr.binary op = f := by
  simp [binaryJoin, Option.bind_eq_some_iff, identifier?_eq_some]

theorem mem_spelled {ops : List BinaryOp} {name : String} {f : Join} :
    (fold name, f) ∈ spelled ops ↔ ∃ op, BinaryOp.ofWord? ops name = some op ∧ Expr.binary op = f := by
  simp only [spelled, List.mem_map, Prod.mk.injEq, ofWord?_eq_some_iff]
  constructor
  · rintro ⟨op, hm, hw, hf⟩
    exact ⟨op, ⟨hm, hw.symm⟩, hf⟩
  · rintro ⟨op, ⟨hm, hw⟩, hf⟩
    exact ⟨op, hm, hw.symm, hf⟩

/-- Whether a level of the reader has the operators of a level of the grammar. -/
def Agrees (join? : Token → Option Join) (k : Nat) : Prop :=
  ∀ t f, join? t = some f ↔ Operator k t f

theorem agrees_spelled {ops : List BinaryOp} {k : Nat} (h : operators k = spelled ops) :
    Agrees (binaryJoin (BinaryOp.ofWord? ops)) k := by
  intro t f
  rw [binaryJoin_iff, operator_iff, h]
  simp only [mem_spelled]

theorem agrees_multiplicative : Agrees (binaryJoin BinaryOp.multiplicative?) 0 := by
  intro t f
  rw [binaryJoin_iff, operator_iff]
  refine exists_congr fun name => and_congr_right fun _ => ?_
  unfold BinaryOp.multiplicative?
  -- The reader knows `divby` beside the symbols, as another word for `div`.
  by_cases hw : fold name = "divby"
  · simp [hw, operators, eq_comm]
  · rw [if_neg (by simpa using hw), ← mem_spelled]
    simp [hw, operators, spelled, BinaryOp.symbol]

/-- The operators of the level but for `in`. -/
def comparisons : List BinaryOp :=
  [.eq, .ne, .gt, .ge, .lt, .le, .has]

theorem not_mem_comparisons (f : Join) : ("in", f) ∉ spelled comparisons := by
  simp [spelled, comparisons, BinaryOp.symbol]

theorem agrees_comparison : Agrees comparisonJoin 2 := by
  have hs : ∀ t f, binaryJoin BinaryOp.comparison? t = some f ↔
      ∃ name, t.kind = .identifier name ∧ (fold name, f) ∈ spelled comparisons := by
    intro t f
    rw [binaryJoin_iff]
    simp only [mem_spelled]
    rfl
  intro t f
  rw [operator_iff, show operators 2 = spelled comparisons ++ [("in", .within)] from rfl]
  simp only [List.mem_append, List.mem_singleton, Prod.mk.injEq]
  unfold comparisonJoin
  cases hb : binaryJoin BinaryOp.comparison? t with
  | some g =>
    obtain ⟨name, ht, hg⟩ := (hs t g).mp hb
    constructor
    · rintro ⟨⟩
      exact ⟨name, ht, .inl hg⟩
    · rintro ⟨name', ht', hf | ⟨hin, -⟩⟩
      · exact hb.symm.trans ((hs t f).mpr ⟨name', ht', hf⟩)
      · cases ht.symm.trans ht'
        exact absurd (hin ▸ hg) (not_mem_comparisons g)
  | none =>
    constructor
    · intro h
      by_cases hin : t.isKeyword "in" = true
      · obtain ⟨name, ht, hn⟩ := isKeyword_iff.mp hin
        rw [if_pos hin] at h
        exact ⟨name, ht, .inr ⟨sameName_iff.mp hn, (Option.some.inj h).symm⟩⟩
      · rw [if_neg hin] at h
        cases h
    · rintro ⟨name, ht, hf | ⟨hin, rfl⟩⟩
      · rw [(hs t f).mpr ⟨name, ht, hf⟩] at hb
        cases hb
      · have hin : fold name = fold "in" := hin.trans (by decide)
        rw [if_pos (isKeyword_iff.mpr ⟨name, ht, sameName_iff.mpr hin⟩)]

theorem agrees_additive : Agrees (binaryJoin BinaryOp.additive?) 1 :=
  show Agrees (binaryJoin (BinaryOp.ofWord? [.add, .sub])) 1 from agrees_spelled rfl

theorem agrees_and : Agrees (binaryJoin (BinaryOp.ofWord? [.and])) 3 := agrees_spelled rfl

theorem agrees_or : Agrees (binaryJoin (BinaryOp.ofWord? [.or])) 4 := agrees_spelled rfl

theorem ofWord?_eq_some {quantifier : Quantifier} {name : String} :
    Quantifier.ofWord? name = some quantifier ↔ sameName name quantifier.symbol = true := by
  have hs : fold quantifier.symbol = quantifier.symbol := by cases quantifier <;> decide
  rw [sameName_iff, hs]
  unfold Quantifier.ofWord?
  by_cases ha : fold name = "any"
  · cases quantifier <;> simp [ha, Quantifier.symbol]
  · by_cases hl : fold name = "all"
    · cases quantifier <;> simp [hl, Quantifier.symbol]
    · cases quantifier <;> simp [ha, hl, Quantifier.symbol]

theorem isKeyword_of_quantifier {t : Token} {name : String} {quantifier : Quantifier} (ht : t.kind = .identifier name)
    (hq : Quantifier.ofWord? name = some quantifier) : t.isKeyword quantifier.symbol = true :=
  isKeyword_iff.mpr ⟨name, ht, ofWord?_eq_some.mp hq⟩

theorem wordLiteral?_eq_some {name : String} {value : Literal} :
    wordLiteral? name = some value ↔ ∃ word, (word, value) ∈ words ∧ sameName name word = true := by
  have hw : ∀ word ∈ words.map Prod.fst, fold word = word := by decide
  have hs : ∀ word ∈ words.map Prod.fst, (sameName name word = true ↔ fold name = word) :=
    fun word hm => by rw [sameName_iff, hw word hm]
  rw [exists_word_iff hw]
  unfold wordLiteral?
  simp only [hs "null" (by decide), hs "true" (by decide), hs "false" (by decide), words, List.mem_cons,
    List.not_mem_nil, or_false, Prod.mk.injEq]
  by_cases hn : fold name = "null"
  · simp [hn, eq_comm]
  · by_cases ht : fold name = "true"
    · simp [ht, eq_comm]
    · by_cases hf : fold name = "false" <;> simp [hn, ht, hf, eq_comm]

theorem isName_iff {name : String} : IsName name ↔ sameName name "not" = false ∧ wordLiteral? name = none := by
  unfold IsName wordLiteral?
  simp only [List.forall_mem_cons]
  cases sameName name "null" <;> cases sameName name "true" <;> cases sameName name "false" <;> simp

theorem not_not {name word : String} {value : Literal} (hw : (word, value) ∈ words) (hn : sameName name word = true) :
    sameName name "not" = false := by
  have hne : ∀ word ∈ words.map Prod.fst, fold word ≠ fold "not" := by decide
  have hw := hne word (List.mem_map_of_mem (f := Prod.fst) hw)
  refine Bool.eq_false_iff.mpr fun h => hw ?_
  rw [← sameName_iff.mp hn, sameName_iff.mp h]

/-! ## Beginnings -/

/-- Whether the first token is not a closing parenthesis. -/
def Starts (ts : List Token) : Prop :=
  ∃ t rest, ts = t :: rest ∧ t.kind ≠ .closeParen

theorem Starts.append {ts : List Token} (h : Starts ts) (more : List Token) : Starts (ts ++ more) := by
  obtain ⟨t, rest, rfl, ht⟩ := h
  exact ⟨t, rest ++ more, rfl, ht⟩

theorem starts_of_kind {t : Token} {kind : TokenKind} (ht : t.kind = kind) (hk : kind ≠ .closeParen)
    (rest : List Token) : Starts (t :: rest) :=
  ⟨t, rest, rfl, ht ▸ hk⟩

theorem starts_of_keyword {t : Token} {word : String} (ht : t.isKeyword word = true) (rest : List Token) :
    Starts (t :: rest) := by
  obtain ⟨name, ht, -⟩ := isKeyword_iff.mp ht
  exact starts_of_kind ht nofun rest

theorem Path.starts : ∀ {ts : List Token} {e : Expr}, Path ts e → Starts ts
  | _, _, .name ht _ => starts_of_kind ht nofun _
  | _, _, .member h _ _ => h.starts.append _
  | _, _, .quantifiedEmpty h _ _ _ _ => h.starts.append _
  | _, _, .quantified h _ _ _ _ _ _ _ => h.starts.append _

theorem Primary.starts {ts : List Token} {e : Expr} (h : Primary ts e) : Starts ts := by
  cases h with
  | literal ht => exact starts_of_kind ht nofun _
  | word _ ht => exact starts_of_keyword ht _
  | callEmpty ht => exact starts_of_kind ht nofun _
  | call ht => exact starts_of_kind ht nofun _
  | path h => exact h.starts
  | parens ho => exact starts_of_kind ho nofun _
  | list ho => exact starts_of_kind ho nofun _

theorem Unary.starts {ts : List Token} {e : Expr} (h : Unary ts e) : Starts ts := by
  cases h with
  | not ht => exact starts_of_keyword ht _
  | minus ht => exact starts_of_kind ht nofun _
  | primary h => exact h.starts

theorem Level.starts : ∀ {k : Nat} {ts : List Token} {e : Expr}, Level k ts e → Starts ts
  | _, _, _, .operand h => h.starts
  | _, _, _, .tighter h => h.starts
  | _, _, _, .join hl _ _ _ => hl.starts.append _

theorem Items.starts {ts : List Token} {es : List Expr} (h : Items ts es) : Starts ts := by
  cases h with
  | one h => exact h.starts
  | more h => exact h.starts.append _

end FilterGuard.Grammar
