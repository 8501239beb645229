import FilterGuard.Bound.Render
import FilterGuard.Proofs.Lexemes

/-!
# What the text of a bound expression says

The text leaves out conversions and the filtered instance in front of a property, and
has parentheses around operands that are binary operators and nothing else. So it says
what the expression does only where no other operand needs them, and where the names
and literals in it are read as what they are.
-/

namespace FilterGuard
open Grammar Text
open Token (Spells Breaks breaks_cons IsIdentifier)

/-! ## Legible expressions -/

/-- The level of the grammar that an operator is on. -/
def BinaryOp.level : BinaryOp → Nat
  | mul | div | mod => 0
  | add | sub => 1
  | and => 3
  | or => 4
  | _ => 2

/-- Whether a literal keeps its value in its text. -/
def Literal.legible : Literal → Bool
  | null | boolean _ | int32 _ | string _ => true
  | enum type member => decide (Token.IsWord type.toList ∧ '.' ∈ type.toList ∧ '\'' ∉ member.toList)
  | _ => false

instance (name : String) : Decidable (Grammar.IsName name) :=
  inferInstanceAs (Decidable (∀ word ∈ ["not", "null", "true", "false"], sameName name word = false))

namespace Bound

/-- The least level of the grammar that the text is on: 0 for an operand. -/
def level : Bound → Nat
  | convert source _ => source.level
  | binary op _ _ => op.level + 1
  | within .. => 3
  | _ => 0

def isInstance (b : Bound) : Bool :=
  match b.unconverted with
  | var name _ => name = instanceName
  | _ => false

/-- Whether a minus in front of a text would be read as part of a number. -/
def takesMinus (text : List Char) : Bool :=
  text.head?.any Char.isDigit || text.take 3 = ['I', 'N', 'F']

mutual

/-- Whether the text says what the expression does, under variables. -/
def legible (vars : List String) : Bound → Bool
  | const value => value.legible
  | convert source _ => legible vars source
  -- Binary operators among the operands have parentheses, nothing else has.
  | unary .not operand => legible vars operand && (operand.isBinary || operand.level = 0)
  | unary .negate operand =>
    legible vars operand && (operand.isBinary || (operand.level = 0 && !takesMinus operand.render.toList))
  | binary op left right =>
    legible vars left && legible vars right && (left.isBinary || left.level ≤ op.level + 1)
      && (right.isBinary || right.level ≤ op.level)
  | call _ args => legibleEach vars args
  | within item candidates =>
    legible vars item && legible vars candidates && item.level ≤ 3 && candidates.level ≤ 2
  | quantified _ source v body => legible vars source && legible (v.toList ++ vars) body
  | access _ none _ => true
  | access _ (some owner) name =>
    -- The filtered instance is left out, so a variable or a word can take the place of its property.
    legible vars owner && name ≠ "INF" && name ≠ "NaN"
      && (!owner.isInstance || (name ≠ instanceName && name ∉ vars && decide (IsName name)))
  | list items => legibleEach vars items
  | var _ _ => true

def legibleEach (vars : List String) : List Bound → Bool
  | [] => true
  | b :: bs => legible vars b && legibleEach vars bs

end

mutual

/-- The expression that the text is meant to say. Of a list of one item that something
is looked for in, the text is that of the item in parentheses. -/
def written : Bound → Expr
  | const value => .literal value
  | convert source _ => source.written
  | unary op operand => .unary op operand.written
  | binary op left right => .binary op left.written right.written
  | call function args => .call function (writtenEach args)
  | within item (list [x]) => .within item.written x.written
  | within item candidates => .within item.written candidates.written
  | quantified quantifier source none _ => .quantifiedEmpty quantifier source.written
  | quantified quantifier source (some v) body => .quantified quantifier source.written v body.written
  | access _ none name => .name name
  | access _ (some owner) name => if owner.isInstance then .name name else .member owner.written name
  | list items => .list (writtenEach items)
  | var name _ => .name name

def writtenEach : List Bound → List Expr
  | [] => []
  | b :: bs => b.written :: writtenEach bs

end

theorem legibleEach_iff {vars : List String} {bs : List Bound} :
    legibleEach vars bs = true ↔ ∀ b ∈ bs, b.legible vars = true := by
  induction bs with
  | nil => simp [legibleEach]
  | cons b bs ih => rw [legibleEach, Bool.and_eq_true, List.forall_mem_cons, ih]

theorem writtenEach_eq_map (bs : List Bound) : writtenEach bs = bs.map written := by
  induction bs with
  | nil => rfl
  | cons b bs ih => rw [writtenEach, ih, List.map_cons]

/-! ## Texts -/

theorem toList_parens (text : String) : (parens true text).toList = '(' :: (text.toList ++ [')']) := by
  simp [parens]

end Bound

/-! ## Texts and derivations -/

/-- Whether the tokens of a text are such. -/
def Says (P : List Token → Prop) (cs : List Char) : Prop :=
  ∃ kinds, Spells cs kinds ∧ ∀ ts, ts.map Token.kind = kinds → P ts

/-- Whether tokens begin with one of a kind and go on as such. -/
def Headed (kind : TokenKind) (P : List Token → Prop) (ts : List Token) : Prop :=
  ∃ t rest, ts = t :: rest ∧ t.kind = kind ∧ P rest

/-- Whether tokens consist of such and such. -/
def Joins (P Q : List Token → Prop) (ts : List Token) : Prop :=
  ∃ l r, ts = l ++ r ∧ P l ∧ Q r

namespace Says

variable {P Q : List Token → Prop} {cs ds : List Char} {e left right : Expr}

theorem imp (h : Says P cs) (hi : ∀ ts, P ts → Q ts) : Says Q cs := by
  obtain ⟨kinds, hs, hd⟩ := h
  exact ⟨kinds, hs, fun ts hts => hi ts (hd ts hts)⟩

theorem nil : Says (· = []) [] :=
  ⟨[], Token.spells_nil, fun _ => List.map_eq_nil_iff.mp⟩

theorem blank (h : Says P cs) : Says P (' ' :: cs) := by
  obtain ⟨kinds, hs, hd⟩ := h
  exact ⟨kinds, hs.blank (by decide), hd⟩

theorem headed {kind : TokenKind} (h : Says P cs) (hs : ∀ kinds, Spells cs kinds → Spells ds (kind :: kinds)) :
    Says (Headed kind P) ds := by
  obtain ⟨kinds, hk, hd⟩ := h
  refine ⟨kind :: kinds, hs kinds hk, fun ts hts => ?_⟩
  obtain ⟨t, rest, rfl, ht, hrest⟩ := List.map_eq_cons_iff.mp hts
  exact ⟨t, rest, rfl, ht, hd rest hrest⟩

theorem sign {c : Char} {kind : TokenKind} (h : Says P cs) (hc : isBlank c = false)
    (hs : Token.Scans c cs kind 0) : Says (Headed kind P) (c :: cs) :=
  h.headed fun _ hk => hk.sign hc hs

theorem append (h : Says P cs) (hb : Breaks ds) (h' : Says Q ds) : Says (Joins P Q) (cs ++ ds) := by
  obtain ⟨kinds, hs, hd⟩ := h
  obtain ⟨kinds', hs', hd'⟩ := h'
  refine ⟨kinds ++ kinds', hs.append hb hs', fun ts hts => ?_⟩
  obtain ⟨l, r, rfl, hl, hr⟩ := List.map_eq_append_iff.mp hts
  exact ⟨l, r, rfl, hd l hl, hd' r hr⟩

theorem name {name : String} (hn : IsIdentifier name) (hb : Breaks ds) (h : Says P ds) :
    Says (Headed (.identifier name) P) (name.toList ++ ds) :=
  h.headed fun _ hk => hn.spells_self.append hb hk

theorem name_alone {name : String} (hn : IsIdentifier name) :
    Says (Headed (.identifier name) (· = [])) name.toList := by
  have h := nil.name hn (show Breaks [] from nofun)
  rwa [List.append_nil] at h

theorem close : Says (Headed .closeParen (· = [])) [')'] :=
  nil.sign (by decide) (.sign (by simp [Token.signs]))

theorem closed (h : Says P cs) : Says (Joins P (Headed .closeParen (· = []))) (cs ++ [')']) :=
  h.append (breaks_cons Token.break_closeParen []) close

theorem opened (h : Says P cs) : Says (Headed .openParen P) ('(' :: cs) :=
  h.headed fun _ => Spells.openParen

theorem comma (h : Says P cs) : Says (Headed .comma P) (',' :: cs) :=
  h.sign (by decide) (.sign (by simp [Token.signs]))

theorem colon (h : Says P cs) : Says (Headed .colon P) (':' :: cs) :=
  h.sign (by decide) (.sign (by simp [Token.signs]))

theorem slash (h : Says P cs) : Says (Headed .slash P) ('/' :: cs) :=
  h.sign (by decide) (.sign (by simp [Token.signs]))

/-! ### Levels -/

theorem of_primary (h : Says (Primary · e) cs) (k : Nat) : Says (Level k · e) cs := by
  induction k with
  | zero => exact h.imp fun _ h => .operand (.primary h)
  | succ k ih => exact ih.imp fun _ h => .tighter h

theorem mono {j k : Nat} (h : Says (Level j · e) cs) (hjk : j ≤ k) : Says (Level k · e) cs := by
  induction hjk with
  | refl => exact h
  | step _ ih => exact ih.imp fun _ h => .tighter h

theorem unary (h : Says (Level 0 · e) cs) : Says (Unary · e) cs := by
  refine h.imp fun ts h => ?_
  cases h with
  | operand h => exact h

theorem parens (h : Says (Level 5 · e) cs) : Says (Primary · e) ('(' :: (cs ++ [')'])) := by
  refine h.closed.opened.imp ?_
  rintro _ ⟨o, _, rfl, ho, ts, _, rfl, hts, c, _, rfl, hc, rfl⟩
  exact .parens ho hts hc

theorem join {k : Nat} {word : String} {f : Parsing.Join} (hw : IsIdentifier word) (ho : (word, f) ∈ operators k)
    (hl : Says (Level (k + 1) · left) cs) (hr : Says (Level k · right) ds) :
    Says (Level (k + 1) · (f left right)) (cs ++ ' ' :: (word.toList ++ ' ' :: ds)) := by
  have hright := (hr.blank.name hw (breaks_cons Token.break_space ds)).blank
  refine (hl.append (breaks_cons Token.break_space _) hright).imp ?_
  rintro _ ⟨l, _, rfl, hl, t, r, rfl, ht, hr⟩
  exact .join hl ⟨word, ho, isKeyword_iff.mpr ⟨word, ht, sameName_self word⟩⟩ hr rfl

theorem within (hl : Says (Level 3 · left) cs) (hr : Says (Level 2 · right) ds) :
    Says (Level 3 · (.within left right)) (cs ++ ' ' :: ("in".toList ++ ' ' :: ds)) :=
  hl.join (by decide) (by simp [operators]) hr

/-! ### Operands -/

theorem not (h : Says (Unary · e) cs) : Says (Unary · (.unary .not e)) ("not".toList ++ ' ' :: cs) := by
  have hn : IsIdentifier "not" := by decide
  refine (h.blank.name hn (breaks_cons Token.break_space cs)).imp ?_
  rintro _ ⟨t, ts, rfl, ht, hts⟩
  exact .not (isKeyword_iff.mpr ⟨_, ht, sameName_self _⟩) hts

theorem minus (h : Says (Unary · e) cs) (hm : Bound.takesMinus cs = false) :
    Says (Unary · (.unary .negate e)) ('-' :: cs) := by
  obtain ⟨hd, hinf⟩ := Bool.or_eq_false_iff.mp hm
  have hs : Token.Scans '-' cs .minus 0 := .minus rfl (of_decide_eq_false hinf) hd
  refine (h.sign (by decide) hs).imp ?_
  rintro _ ⟨t, ts, rfl, ht, hts⟩
  exact .minus ht hts

theorem name_self {name : String} (hn : IsIdentifier name) (hw : IsName name) :
    Says (Path · (.name name)) name.toList := by
  refine (name_alone hn).imp ?_
  rintro _ ⟨t, _, rfl, ht, rfl⟩
  exact .name ht hw

theorem member {name : String} (hn : IsIdentifier name) (h : Says (Path · e) cs) :
    Says (Path · (.member e name)) (cs ++ '/' :: name.toList) := by
  refine (h.append (breaks_cons Token.break_slash _) (name_alone hn).slash).imp ?_
  rintro _ ⟨ts, _, rfl, hts, s, _, rfl, hs, t, _, rfl, ht, rfl⟩
  exact .member hts hs ht

/-- A source, a quantifier, and what is between its parentheses. -/
theorem quantifier (q : Quantifier) (h : Says (Path · e) cs) (h' : Says P ds) :
    Says (Joins (Path · e) (Headed .slash (Headed (.identifier q.symbol) (Headed .openParen P))))
      (cs ++ '/' :: (q.symbol.toList ++ '(' :: ds)) := by
  have hq : IsIdentifier q.symbol := by cases q <;> decide
  have hname := h'.opened.name hq (breaks_cons Token.break_openParen ds)
  exact h.append (breaks_cons Token.break_slash _) hname.slash

theorem quantifiedEmpty (q : Quantifier) (h : Says (Path · e) cs) :
    Says (Path · (.quantifiedEmpty q e)) (cs ++ '/' :: (q.symbol.toList ++ ['(', ')'])) := by
  refine (h.quantifier q close).imp ?_
  rintro _ ⟨ts, _, rfl, hts, s, _, rfl, hs, t, _, rfl, ht, o, _, rfl, ho, c, _, rfl, hc, rfl⟩
  exact .quantifiedEmpty hts hs (isKeyword_iff.mpr ⟨_, ht, sameName_self _⟩) ho hc

theorem quantified (q : Quantifier) {v : String} (hv : IsIdentifier v) (h : Says (Path · e) cs) {body : Expr}
    (hb : Says (Level 5 · body) ds) : Says (Path · (.quantified q e v body))
      (cs ++ '/' :: (q.symbol.toList ++ '(' :: (v.toList ++ ':' :: ' ' :: (ds ++ [')'])))) := by
  have hvar := hb.closed.blank.colon.headed fun _ hk => hv.spells (Token.endsWord_colon _) (by simp) hk
  refine (h.quantifier q hvar).imp ?_
  rintro _ ⟨ts, _, rfl, hts, s, _, rfl, hs, t, _, rfl, ht, o, _, rfl, ho, v, _, rfl, hv, k, _, rfl, hk, bs, _, rfl, hbs,
    c, _, rfl, hc, rfl⟩
  exact .quantified hts hs (isKeyword_iff.mpr ⟨_, ht, sameName_self _⟩) ho hv hk hbs hc

theorem call {function : String} (hn : IsIdentifier function) (hw : IsName function) {args : List Expr}
    (h : Says (Items · args) cs) :
    Says (Primary · (.call function args)) (function.toList ++ '(' :: (cs ++ [')'])) := by
  refine (h.closed.opened.name hn (breaks_cons Token.break_openParen _)).imp ?_
  rintro _ ⟨t, _, rfl, ht, o, _, rfl, ho, ts, _, rfl, hts, c, _, rfl, hc, rfl⟩
  exact .call ht hw ho hts hc

theorem callEmpty {function : String} (hn : IsIdentifier function) (hw : IsName function) :
    Says (Primary · (.call function [])) (function.toList ++ ['(', ')']) := by
  refine (close.opened.name hn (breaks_cons Token.break_openParen _)).imp ?_
  rintro _ ⟨t, _, rfl, ht, o, _, rfl, ho, c, _, rfl, hc, rfl⟩
  exact .callEmpty ht hw ho hc

theorem list {items : List Expr} (hl : 2 ≤ items.length) (h : Says (Items · items) cs) :
    Says (Primary · (.list items)) ('(' :: (cs ++ [')'])) := by
  refine h.closed.opened.imp ?_
  rintro _ ⟨o, _, rfl, ho, ts, _, rfl, hts, c, _, rfl, hc, rfl⟩
  exact .list ho hts hl hc

theorem cons {items : List Expr} (h : Says (Level 5 · e) cs) (hi : Says (Items · items) ds) :
    Says (Items · (e :: items)) (cs ++ ',' :: ' ' :: ds) := by
  refine (h.append (breaks_cons Token.break_comma _) hi.blank.comma).imp ?_
  rintro _ ⟨ts, _, rfl, hts, c, rest, rfl, hc, hrest⟩
  exact .more hts hc hrest

theorem literal {value : Literal} (h : value.legible = true) :
    Says (Primary · (.literal value)) value.render.toList := by
  have hone : Spells value.render.toList [.literal value] → Says (Primary · (.literal value)) value.render.toList := by
    intro hs
    refine ⟨_, hs, fun ts hts => ?_⟩
    obtain ⟨t, _, rfl, ht, hnil⟩ := List.map_eq_cons_iff.mp hts
    cases List.map_eq_nil_iff.mp hnil
    exact .literal ht
  have hword : ∀ word, (word, value) ∈ words → IsIdentifier word →
      Says (Primary · (.literal value)) word.toList := by
    intro word hw hn
    refine (name_alone hn).imp ?_
    rintro _ ⟨t, _, rfl, ht, rfl⟩
    exact .word hw (isKeyword_iff.mpr ⟨word, ht, sameName_self word⟩)
  cases value with
  | null => exact hword "null" (by decide) (by decide)
  | boolean value =>
    cases value with
    | false => exact hword "false" (by decide) (by decide)
    | true => exact hword "true" (by decide) (by decide)
  | int32 n => exact hone (Token.spells_int32 n)
  | string text => exact hone (Token.spells_string text)
  | enum type member =>
    obtain ⟨ht, hp, hm⟩ := of_decide_eq_true h
    exact hone (Token.spells_enum ht hp hm)
  | _ => cases h

end Says

/-! ## Legible texts -/

namespace Bound

/-- Whether the text of an expression says what is written: a path, if it is one, and
an expression of its level. -/
structure Worded (b : Bound) : Prop where
  path : b.written.isPath = true → Says (Path · b.written) b.render.toList
  level : Says (Level b.level · b.written) b.render.toList

theorem Worded.of_path {b : Bound} (h : Says (Path · b.written) b.render.toList) (hl : b.level = 0) : Worded b := by
  refine ⟨fun _ => h, ?_⟩
  rw [hl]
  exact (h.imp fun _ h => .path h).of_primary 0

theorem Worded.of_primary {b : Bound} (hp : b.written.isPath = false) (h : Says (Primary · b.written) b.render.toList)
    (hl : b.level = 0) : Worded b := by
  refine ⟨fun hb => absurd (hp.symm.trans hb) nofun, ?_⟩
  rw [hl]
  exact h.of_primary 0

theorem level_operator (op : BinaryOp) : op.level < 5 ∧ (op.symbol, Expr.binary op) ∈ operators op.level := by
  cases op <;> simp [BinaryOp.level, operators, BinaryOp.symbol]

theorem level_le : ∀ b : Bound, b.level ≤ 5
  | convert source _ => level_le source
  | binary op _ _ => (level_operator op).1
  | within .. => show 3 ≤ 5 by decide
  | const _ | unary .. | call .. | quantified .. | access .. | list _ | var .. => Nat.zero_le 5

theorem Worded.whole {b : Bound} (h : Worded b) : Says (Level 5 · b.written) b.render.toList :=
  h.level.mono b.level_le

/-- An operand with parentheses around it if it has an operator of its own. -/
theorem Worded.operand {b : Bound} (h : Worded b) {k : Nat} (hk : (b.isBinary || b.level ≤ k) = true) :
    Says (Level k · b.written) (parens b.isBinary b.render).toList := by
  cases hb : b.isBinary with
  | true =>
    rw [toList_parens]
    exact h.whole.parens.of_primary k
  | false =>
    rw [hb, Bool.false_or] at hk
    exact h.level.mono (of_decide_eq_true hk)

/-- The text of a property is its path, from the filtered instance on. -/
theorem render_access (sort : Access) (owner : Bound) (name : String) : (access sort (some owner) name).render =
    if owner.isInstance then name else owner.render ++ "/" ++ name := by
  have ht : ownerText owner owner.render = if owner.isInstance then "" else owner.render ++ "/" := by
    unfold ownerText isInstance
    cases owner.unconverted <;> simp
  rw [render_access_some, ht]
  split <;> simp

theorem written_within {item candidates : Bound} (h : ∀ x, candidates ≠ list [x]) :
    (within item candidates).written = .within item.written candidates.written := by
  rw [written]
  exact h

theorem exists_written_within (item candidates : Bound) :
    ∃ c, (within item candidates).written = .within item.written c := by
  by_cases h : ∃ x, candidates = list [x]
  · obtain ⟨x, rfl⟩ := h
    exact ⟨x.written, rfl⟩
  · exact ⟨_, written_within (not_exists.mp h)⟩

theorem worded_not {operand : Bound} (h : Worded operand) (hk : (operand.isBinary || operand.level = 0) = true) :
    Worded (unary .not operand) := by
  have h := (h.operand (k := 0) (by simpa using hk)).unary.not.imp fun _ h => Level.operand h
  refine ⟨nofun, ?_⟩
  rw [render_unary_not, written]
  simpa [level] using h

theorem worded_negate {operand : Bound} (h : Worded operand)
    (hk : (operand.isBinary || (operand.level = 0 && !takesMinus operand.render.toList)) = true) :
    Worded (unary .negate operand) := by
  have hlevel : (operand.isBinary || decide (operand.level ≤ 0)) = true := by
    obtain hb | hb := Bool.or_eq_true_iff.mp hk
    · simp [hb]
    · simp at hb
      simp [hb]
  have hm : takesMinus (parens operand.isBinary operand.render).toList = false := by
    cases hb : operand.isBinary with
    | true =>
      rw [toList_parens]
      rfl
    | false =>
      rw [hb, Bool.false_or, Bool.and_eq_true, Bool.not_eq_true'] at hk
      exact hk.2
  have h := ((h.operand hlevel).unary.minus hm).imp fun _ h => Level.operand h
  refine ⟨nofun, ?_⟩
  rw [render_unary_negate, written]
  simpa [level] using h

theorem worded_binary {op : BinaryOp} {left right : Bound} (hl : Worded left) (hr : Worded right)
    (hlk : (left.isBinary || left.level ≤ op.level + 1) = true) (hrk : (right.isBinary || right.level ≤ op.level) = true) :
    Worded (binary op left right) := by
  have hw : IsIdentifier op.symbol := by cases op <;> decide
  have h := (hl.operand hlk).join hw (level_operator op).2 (hr.operand hrk)
  refine ⟨nofun, ?_⟩
  rw [render_binary, written, level]
  simpa using h

theorem worded_within {item candidates : Bound} (hi : Worded item) (hc : Worded candidates) (hik : item.level ≤ 3)
    (hck : candidates.level ≤ 2) (hne : ∀ x, candidates ≠ list [x]) : Worded (within item candidates) := by
  have h := (hi.level.mono hik).within (hc.level.mono hck)
  refine ⟨?_, ?_⟩
  · rw [written_within hne]
    nofun
  · rw [render_within, written_within hne, level]
    simpa using h

/-- The text of a list of one item is that of the item in parentheses. -/
theorem worded_single {item x : Bound} (hi : Worded item) (hx : Worded x) (hik : item.level ≤ 3) :
    Worded (within item (list [x])) := by
  have h := (hi.level.mono hik).within (hx.whole.parens.of_primary 2)
  refine ⟨nofun, ?_⟩
  rw [render_within, render_list, itemsText_singleton, written, level]
  simpa using h

theorem worded_access {sort : Access} {owner : Bound} {name : String}
    (ho : (access sort (some owner) name).written.Orderly) (h : owner.written.Orderly → Worded owner) :
    Worded (access sort (some owner) name) := by
  refine .of_path ?_ rfl
  rw [written] at ho
  rw [render_access, written]
  by_cases hw : owner.isInstance = true
  · rw [if_pos hw] at ho ⊢
    rw [if_pos hw]
    cases ho with
    | name hn hw => exact Says.name_self hn hw
  · rw [if_neg hw] at ho ⊢
    rw [if_neg hw]
    cases ho with
    | member hp ho hn => simpa using ((h ho).path hp).member hn

mutual

theorem worded : ∀ (b : Bound) {vars : List String}, b.written.Orderly → b.legible vars = true → Worded b
  | const value, vars, _, hl => by
    rw [legible] at hl
    have h := Says.literal hl
    refine .of_primary rfl ?_ rfl
    rwa [render_const]
  | convert source _, vars, ho, hl => by
    rw [legible] at hl
    rw [written] at ho
    obtain ⟨hp, hlevel⟩ := worded source ho hl
    exact ⟨hp, hlevel⟩
  | unary op operand, vars, ho, hl => by
    rw [written] at ho
    cases ho with
    | unary ho =>
      cases op <;> rw [legible, Bool.and_eq_true] at hl
      case not => exact worded_not (worded operand ho hl.1) hl.2
      case negate => exact worded_negate (worded operand ho hl.1) hl.2
  | binary op left right, vars, ho, hl => by
    rw [written] at ho
    simp only [legible, Bool.and_eq_true] at hl
    obtain ⟨⟨⟨hl, hr⟩, hlk⟩, hrk⟩ := hl
    cases ho with
    | binary hol hor => exact worded_binary (worded left hol hl) (worded right hor hr) hlk hrk
  | call function args, vars, ho, hl => by
    rw [legible] at hl
    rw [written] at ho
    cases ho with
    | call hn hw ha =>
      refine .of_primary rfl ?_ rfl
      rw [render_call, written]
      cases args with
      | nil => simpa [itemsText, writtenEach] using Says.callEmpty hn hw
      | cons x xs => simpa using (worded_each (x :: xs) nofun ha hl).call hn hw
  | within item candidates, vars, ho, hl => by
    simp only [legible, Bool.and_eq_true, decide_eq_true_eq] at hl
    obtain ⟨⟨⟨hi, hc⟩, hik⟩, hck⟩ := hl
    have hsearch : (∀ x, candidates ≠ list [x]) → Worded (within item candidates) := by
      intro hne
      rw [written_within hne] at ho
      cases ho with
      | within hoi hoc => exact worded_within (worded item hoi hi) (worded candidates hoc hc) hik hck hne
    -- A list of one item is not written as a list, so its item is read in its place.
    cases candidates with
    | list items =>
      obtain _ | ⟨x, _ | ⟨y, xs⟩⟩ := items
      · exact hsearch (by simp)
      · rw [written] at ho
        rw [legible, legibleEach, Bool.and_eq_true] at hc
        cases ho with
        | within hoi hox => exact worded_single (worded item hoi hi) (worded x hox hc.1) hik
      · exact hsearch (by simp)
    | _ => exact hsearch (by simp)
  | quantified quantifier source none body, vars, ho, hl => by
    rw [legible, Bool.and_eq_true] at hl
    rw [written] at ho
    cases ho with
    | quantifiedEmpty hp hs =>
      have h := ((worded source hs hl.1).path hp).quantifiedEmpty quantifier
      refine .of_path ?_ rfl
      rw [render_quantified, written]
      simpa using h
  | quantified quantifier source (some v) body, vars, ho, hl => by
    rw [legible, Bool.and_eq_true] at hl
    rw [written] at ho
    cases ho with
    | quantified hp hs hv hb =>
      have h := ((worded source hs hl.1).path hp).quantified quantifier hv (worded body hb hl.2).whole
      refine .of_path ?_ rfl
      rw [render_quantified, written]
      simpa using h
  | access sort none name, vars, ho, _ => by
    rw [written] at ho
    cases ho with
    | name hn hw =>
      refine .of_path ?_ rfl
      rw [render_access_none, written]
      exact Says.name_self hn hw
  | access sort (some owner) name, vars, ho, hl => by
    simp only [legible, Bool.and_eq_true] at hl
    exact worded_access ho fun ho => worded owner ho hl.1.1.1
  | list items, vars, ho, hl => by
    rw [legible] at hl
    rw [written] at ho
    cases ho with
    | list hn hi =>
      refine .of_primary rfl ?_ rfl
      rw [render_list, written]
      cases items with
      | nil => cases hn
      | cons x xs => simpa using (worded_each (x :: xs) nofun hi hl).list hn
  | var name type, vars, ho, _ => by
    rw [written] at ho
    cases ho with
    | name hn hw =>
      refine .of_path ?_ rfl
      rw [render_var, written]
      exact Says.name_self hn hw

theorem worded_each : ∀ (bs : List Bound) {vars : List String}, bs ≠ [] → (∀ e ∈ writtenEach bs, e.Orderly) →
    legibleEach vars bs = true → Says (Items · (writtenEach bs)) (itemsText bs).toList
  | [], _, hne, _, _ => absurd rfl hne
  | [b], vars, _, ho, hl => by
    rw [legibleEach, Bool.and_eq_true] at hl
    have ho := ho b.written (by simp [writtenEach])
    exact (worded b ho hl.1).whole.imp fun _ h => .one h
  | b :: c :: bs, vars, _, ho, hl => by
    rw [legibleEach, Bool.and_eq_true] at hl
    obtain ⟨hob, hobs⟩ := List.forall_mem_cons.mp ho
    have h := (worded b hob hl.1).whole.cons (worded_each (c :: bs) nofun hobs hl.2)
    rw [itemsText_cons_cons, writtenEach]
    simpa using h

end

/-- A legible text is parsed as what is written, if there is room for it. -/
theorem parse_render {b : Bound} {vars : List String} (ho : b.written.Orderly) (hl : b.legible vars = true) :
    ∃ limit, ∀ depth, limit ≤ depth → Expr.parse b.render depth = .ok b.written := by
  obtain ⟨kinds, hs, hd⟩ := (worded b ho hl).whole
  obtain ⟨ts, hts, hk⟩ := hs 0
  refine ⟨ts.length, fun depth hdepth => ?_⟩
  exact (ok_bind hts _).trans (ofTokens_of_derives hdepth (hd ts hk))

end Bound

end FilterGuard
