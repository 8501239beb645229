import FilterGuard.Proofs.Derivation
import FilterGuard.Proofs.Scanning

/-!
# Expressions as they can be written

What stands in front of a slash starts with a name, lists have several items, and a
name is read as one identifier. Tokens have such names, and what the grammar derives
from them can be written.
-/

namespace FilterGuard

/-! ## Names -/

namespace Token
open Text

/-- A character that begins a name where a token begins with it. -/
structure Begins (c : Char) : Prop where
  blank : isBlank c = false
  mark : c ∉ marks
  digit : c.isDigit = false
  starts : startsName c = true

instance (c : Char) : Decidable (Begins c) :=
  decidable_of_iff (isBlank c = false ∧ c ∉ marks ∧ c.isDigit = false ∧ startsName c = true)
    ⟨fun ⟨hb, hm, hd, hs⟩ => ⟨hb, hm, hd, hs⟩, fun ⟨hb, hm, hd, hs⟩ => ⟨hb, hm, hd, hs⟩⟩

/-- Whether a text is read as one name. -/
def IsWord : List Char → Prop
  | [] => False
  | c :: cs => Begins c ∧ nameTail cs = cs

instance : (cs : List Char) → Decidable (IsWord cs)
  | [] => inferInstanceAs (Decidable False)
  | c :: cs => inferInstanceAs (Decidable (Begins c ∧ nameTail cs = cs))

/-- A name that is read as an identifier. -/
structure IsIdentifier (name : String) : Prop where
  word : IsWord name.toList
  number : name ≠ "INF" ∧ name ≠ "NaN"

instance (name : String) : Decidable (IsIdentifier name) :=
  decidable_of_iff (IsWord name.toList ∧ name ≠ "INF" ∧ name ≠ "NaN")
    ⟨fun ⟨hw, hn⟩ => ⟨hw, hn⟩, fun ⟨hw, hn⟩ => ⟨hw, hn⟩⟩

theorem IsIdentifier.ne_empty {name : String} (h : IsIdentifier name) : name ≠ "" := by
  rintro rfl
  exact h.word

theorem Begins.opens {c : Char} (h : Begins c) : Opens c :=
  ⟨h.mark, h.digit, h.starts⟩

theorem Opens.begins {c : Char} (h : Opens c) (hc : isBlank c = false) : Begins c :=
  ⟨hc, h.mark, h.digit, h.starts⟩

theorem head?_nameTail {cs : List Char} (h : (cs.head?.any fun d => isLetter d || d = '_') = true) :
    (nameTail cs).head? = cs.head? := by
  cases cs with
  | nil => cases h
  | cons d cs =>
    have h : (isLetter d || d = '_') = true := h
    have hd : (isWordChar d || d = '_') = true := by
      rw [isWordChar]
      obtain h | h := Bool.or_eq_true_iff.mp h <;> simp [h]
    rw [nameTail, if_pos hd]
    rfl

theorem nameTail_nameTail (cs : List Char) : nameTail (nameTail cs) = nameTail cs := by
  induction cs with
  | nil => rfl
  | cons c cs ih =>
    rw [nameTail]
    by_cases hw : (isWordChar c || c = '_') = true
    · rw [if_pos hw, nameTail, if_pos hw, ih]
    · rw [if_neg hw]
      by_cases hp : (c = '.' && cs.head?.any fun d => isLetter d || d = '_') = true
      · have hd := (Bool.and_eq_true_iff.mp hp).2
        rw [if_pos hp, nameTail, if_neg hw, head?_nameTail hd, if_pos hp, ih]
      · rw [if_neg hp]
        rfl

end Token

/-! ## Expressions -/

/-- Whether a slash may follow. -/
def Expr.isPath : Expr → Bool
  | .name _ | .member .. | .quantifiedEmpty .. | .quantified .. => true
  | _ => false

open Token in
/-- An expression with paths in front of all slashes, with lists of several items, and
with names that are read as names. -/
inductive Expr.Orderly : Expr → Prop
  | literal (value : Literal) : Orderly (.literal value)
  | list {items} (hl : 2 ≤ items.length) (h : ∀ e ∈ items, Orderly e) : Orderly (.list items)
  | name {name} (hn : IsIdentifier name) (hw : Grammar.IsName name) : Orderly (.name name)
  | member {owner name} (hp : owner.isPath = true) (ho : Orderly owner) (hn : IsIdentifier name) :
      Orderly (.member owner name)
  | quantifiedEmpty {quantifier source} (hp : source.isPath = true) (hs : Orderly source) :
      Orderly (.quantifiedEmpty quantifier source)
  | quantified {quantifier source var body} (hp : source.isPath = true) (hs : Orderly source)
      (hv : IsIdentifier var) (hb : Orderly body) : Orderly (.quantified quantifier source var body)
  | call {function args} (hn : IsIdentifier function) (hw : Grammar.IsName function) (h : ∀ e ∈ args, Orderly e) :
      Orderly (.call function args)
  | unary {op operand} (h : Orderly operand) : Orderly (.unary op operand)
  | binary {op left right} (hl : Orderly left) (hr : Orderly right) : Orderly (.binary op left right)
  | within {item candidates} (hi : Orderly item) (hc : Orderly candidates) : Orderly (.within item candidates)

/-! ## Tokens -/

/-- The identifiers of a list of tokens are read as such. -/
def Named (ts : List Token) : Prop :=
  ∀ t ∈ ts, ∀ name, t.kind = .identifier name → Token.IsIdentifier name

theorem Named.name {ts : List Token} (h : Named ts) {t : Token} (hm : t ∈ ts) {name : String}
    (ht : t.kind = .identifier name) : Token.IsIdentifier name :=
  h t hm name ht

namespace Token

theorem isWord_of_opens {c : Char} (h : Opens c) (hc : Text.isBlank c = false) (cs : List Char) :
    IsWord (c :: nameTail cs) :=
  ⟨h.begins hc, nameTail_nameTail cs⟩

/-- An identifier is what can be read of a name, and no number. -/
theorem identifier_of_scans {c : Char} {cs : List Char} {name : String} {n : Nat}
    (h : Scans c cs (.identifier name) n) :
    Opens c ∧ String.ofList (c :: nameTail cs) = name ∧ name ≠ "INF" ∧ name ≠ "NaN" := by
  generalize hk : TokenKind.identifier name = kind at h
  cases h with
  | sign hs =>
    subst hk
    simp [signs] at hs
  | string | infinity | minus | word | guid | named => cases hk
  | name ho =>
    rw [kindOfName] at hk
    split at hk
    · cases hk
    · next hn =>
      cases hk
      exact ⟨ho, rfl, not_or.mp hn⟩

theorem isIdentifier_of_scans {c : Char} {cs : List Char} {name : String} {n : Nat} (hc : Text.isBlank c = false)
    (h : Scans c cs (.identifier name) n) : IsIdentifier name := by
  obtain ⟨ho, rfl, hn⟩ := identifier_of_scans h
  refine ⟨?_, hn⟩
  rw [String.toList_ofList]
  exact isWord_of_opens ho hc cs

-- By the characters, since a token is found at the first one behind those to skip.
theorem named_readFrom : ∀ (cs : List Char) {skip position : Nat} {ts : List Token},
    readFrom skip position cs = .ok ts → Named ts
  | [], _, _, _, h => by
    cases h
    nofun
  | c :: cs, n + 1, position, ts, h => named_readFrom cs h
  | c :: cs, 0, position, ts, h => by
    simp only [readFrom] at h
    split at h
    · exact named_readFrom cs h
    · next hc =>
      obtain ⟨⟨kind, n⟩, hs, h⟩ := bind_ok h
      obtain ⟨more, hm, h⟩ := bind_ok h
      cases h
      refine List.forall_mem_cons.mpr ⟨fun name hk => ?_, named_readFrom cs hm⟩
      have hk : kind = .identifier name := hk
      subst hk
      exact isIdentifier_of_scans (Bool.eq_false_iff.mpr hc) (scan_eq_ok_iff.mp hs)

theorem named_read {text : String} {ts : List Token} (h : read text = .ok ts) : Named ts :=
  named_readFrom _ h

end Token

/-! ## Derivations -/

namespace Grammar

theorem orderly_operator {k : Nat} {t : Token} {f : Parsing.Join} (h : Operator k t f) {left right : Expr}
    (hl : left.Orderly) (hr : right.Orderly) : (f left right).Orderly := by
  have hf : ∀ p ∈ operators k, (p.2 left right).Orderly := by
    match k with
    | 0 | 1 | 2 | 3 | 4 => simp [operators, Expr.Orderly.binary hl hr, Expr.Orderly.within hl hr]
    | _ + 5 => simp [operators]
  obtain ⟨word, hw, -⟩ := h
  exact hf _ hw

mutual

theorem Level.orderly : ∀ {k : Nat} {ts : List Token} {e : Expr}, Level k ts e → Named ts → e.Orderly
  | _, _, _, .operand h, hn => h.orderly hn
  | _, _, _, .tighter h, hn => h.orderly hn
  | _, _, _, .join hl ht hr he, hn => by
    obtain ⟨hnl, hnr⟩ := List.forall_mem_append.mp hn
    exact he ▸ orderly_operator ht (hl.orderly hnl) (hr.orderly (List.forall_mem_cons.mp hnr).2)

theorem Unary.orderly : ∀ {ts : List Token} {e : Expr}, Unary ts e → Named ts → e.Orderly
  | _, _, .not _ h, hn => .unary (h.orderly (List.forall_mem_cons.mp hn).2)
  | _, _, .minus _ h, hn => .unary (h.orderly (List.forall_mem_cons.mp hn).2)
  | _, _, .primary h, hn => h.orderly hn

theorem Primary.orderly : ∀ {ts : List Token} {e : Expr}, Primary ts e → Named ts → e.Orderly
  | _, _, .literal _, _ => .literal _
  | _, _, .word _ _, _ => .literal _
  | _, _, .callEmpty ht hw _ _, hn => .call (hn.name (by simp) ht) hw nofun
  | _, _, .call ht hw _ ha _, hn => .call (hn.name (by simp) ht) hw (ha.orderly fun t ht => hn t (by simp [ht]))
  | _, _, .path h, hn => (h.orderly hn).2
  | _, _, .parens _ h _, hn => h.orderly fun t ht => hn t (by simp [ht])
  | _, _, .list _ h hl _, hn => .list hl (h.orderly fun t ht => hn t (by simp [ht]))

theorem Path.orderly : ∀ {ts : List Token} {e : Expr}, Path ts e → Named ts → e.isPath = true ∧ e.Orderly
  | _, _, .name ht hw, hn => ⟨rfl, .name (hn.name (by simp) ht) hw⟩
  | _, _, .member h _ ht, hn => by
    obtain ⟨hp, ho⟩ := h.orderly fun t ht => hn t (by simp [ht])
    exact ⟨rfl, .member hp ho (hn.name (by simp) ht)⟩
  | _, _, .quantifiedEmpty h _ _ _ _, hn => by
    obtain ⟨hp, hs⟩ := h.orderly fun t ht => hn t (by simp [ht])
    exact ⟨rfl, .quantifiedEmpty hp hs⟩
  | _, _, .quantified h _ _ _ hv _ hb _, hn => by
    obtain ⟨hp, hs⟩ := h.orderly fun t ht => hn t (by simp [ht])
    exact ⟨rfl, .quantified hp hs (hn.name (by simp) hv) (hb.orderly fun t ht => hn t (by simp [ht]))⟩

theorem Items.orderly : ∀ {ts : List Token} {es : List Expr}, Items ts es → Named ts → ∀ e ∈ es, e.Orderly
  | _, _, .one h, hn => List.forall_mem_singleton.mpr (h.orderly hn)
  | _, _, .more h _ hi, hn => by
    obtain ⟨hnl, hnr⟩ := List.forall_mem_append.mp hn
    exact List.forall_mem_cons.mpr ⟨h.orderly hnl, hi.orderly (List.forall_mem_cons.mp hnr).2⟩

end

end Grammar

theorem Expr.orderly_of_parse {text : String} {limit : Nat} {e : Expr} (h : Expr.parse text limit = .ok e) :
    e.Orderly := by
  obtain ⟨ts, ht, h⟩ := bind_ok h
  exact (Grammar.derives_of_ofTokens h).orderly (Token.named_read ht)

end FilterGuard
