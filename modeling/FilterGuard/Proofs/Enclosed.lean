import FilterGuard.Proofs.Durations

/-!
# Lists of literals as text

A literal that has been read says what it was read from: some are their own text, and
the others have a name in front of a quoted body. So literals are read back from their
texts, and in a list none of them can reach beyond the comma or the parenthesis behind it.
-/

namespace FilterGuard
open Text

/-! ## Where literals come from -/

namespace Literal

def isNumber : Literal → Bool
  | int32 _ | int64 _ | decimal _ | single _ | double _ => true
  | _ => false

/-- Whether a literal is the text it was read from. -/
def isVerbatim : Literal → Bool
  | date _ | timeOfDay _ | dateTimeOffset _ | guid _ => true
  | _ => false

end Literal

namespace Token

variable {value : Literal} {c : Char} {cs : List Char} {kind : TokenKind} {n : Nat}

theorem isNumber_integerLiteral (digits : List Char) : (Word.integerLiteral digits).isNumber = true := by
  unfold Word.integerLiteral
  split
  · split
    · rfl
    · split <;> rfl
  · rfl

theorem isNumber_longLiteral {digits : List Char} (h : Word.longLiteral digits = some value) :
    value.isNumber = true := by
  unfold Word.longLiteral at h
  split at h
  · split at h <;> cases h
    rfl
  · cases h

theorem isNumber_of_number {word : List Char} (h : Word.number word = .ok value) : value.isNumber = true := by
  unfold Word.number at h
  split at h
  · cases h
  · split at h
    · cases h
      split
      · rfl
      · split
        · rfl
        · exact isNumber_integerLiteral _
    · split at h
      · dsimp only at h
        split at h <;> cases h
        next hlong => exact isNumber_longLiteral hlong
      · split at h
        · cases h
          rfl
        · split at h
          · cases h
            rfl
          · split at h <;> cases h
            rfl
    · cases h

/-- A literal word is a number, or the text itself. -/
theorem classify_ok {word : List Char} (h : Word.classify word = .ok value) :
    value.isNumber = true ∨ value.isVerbatim = true ∧ value.render = String.ofList word := by
  unfold Word.classify at h
  dsimp only at h
  split at h
  · cases h
    exact .inr ⟨rfl, rfl⟩
  · split at h
    · split at h
      · split at h <;> cases h
        exact .inr ⟨rfl, rfl⟩
      · split at h <;> cases h
        exact .inr ⟨rfl, rfl⟩
    · split at h
      · split at h <;> cases h
        exact .inr ⟨rfl, rfl⟩
      · exact .inl (isNumber_of_number h)

theorem named_ok {name body : String} {p : Nat} (h : Word.named name body p = .ok value) :
    value = .duration body ∧ Calendar.isDuration body.toList = true ∨ value = .enum name body ∧ '.' ∈ name.toList := by
  unfold Word.named at h
  split at h
  · split at h <;> cases h
    next hd => exact .inl ⟨rfl, hd⟩
  · split at h <;> cases h
    next hp => exact .inr ⟨rfl, List.contains_iff_mem.mp hp⟩

/-- The ways in which a token is a literal. -/
theorem Scans.literal (h : Scans c cs (.literal value) n) (hc : isBlank c = false) :
    value.isNumber = true ∨ (∃ text, value = .string text) ∨
      (value.isVerbatim = true ∧ value.render = String.ofList (c :: cs.take n)) ∨
      ∃ name body, IsWord name.toList ∧ ∀ p, Word.named name body p = .ok value := by
  generalize hk : TokenKind.literal value = kind at h
  cases h with
  | sign hs =>
    subst hk
    simp [signs] at hs
  | minus => cases hk
  | string =>
    cases hk
    exact .inr (.inl ⟨_, rfl⟩)
  | infinity =>
    cases hk
    exact .inl rfl
  | word _ hw =>
    cases hk
    rw [take_takeWhile]
    exact (classify_ok hw).imp id fun h => .inr (.inl h)
  | guid =>
    cases hk
    exact .inr (.inr (.inl ⟨rfl, rfl⟩))
  | named ho _ _ _ hn =>
    cases hk
    refine .inr (.inr (.inr ⟨_, _, ?_, hn⟩))
    rw [String.toList_ofList]
    exact isWord_of_opens ho hc cs
  | name =>
    rw [kindOfName] at hk
    split at hk <;> cases hk
    exact .inl rfl

end Token

/-! ## Lists -/

/-- Whether some text has a token for a literal. -/
def Literal.Readable (value : Literal) : Prop :=
  ∃ text ts, Token.read text = .ok ts ∧ ∃ t ∈ ts, t.kind = .literal value

/-- The literals that their texts stand for. -/
def Literal.Enclosable (value : Literal) : Prop :=
  match value with
  | .string _ | .int32 _ => True
  | .int64 n => ¬ (Int32.minValue.toInt ≤ n.toInt ∧ n.toInt ≤ Int32.maxValue.toInt)
  | .date _ | .timeOfDay _ | .dateTimeOffset _ | .guid _ | .duration _ => value.Readable
  | .enum _ member => value.Readable ∧ '\'' ∉ member.toList
  | _ => False

namespace Literal

open Token (Spells)

variable {value : Literal}

theorem Readable.exists_scans (h : value.Readable) :
    ∃ c word, isBlank c = false ∧ Token.Scans c word (.literal value) word.length := by
  obtain ⟨text, ts, hread, t, ht, hk⟩ := h
  obtain ⟨c, word, -, hc, hs⟩ := (Token.splits_iff.mp hread).exists_scans ht
  rw [hk] at hs
  exact ⟨c, word, hc, hs⟩

theorem Readable.spells_verbatim (h : value.Readable) (hv : value.isVerbatim = true) :
    Spells value.render.toList [.literal value] := by
  obtain ⟨c, word, hc, hs⟩ := h.exists_scans
  obtain hn | ⟨text, rfl⟩ | ⟨-, hr⟩ | ⟨name, body, -, hn⟩ := hs.literal hc
  · cases value <;> cases hv <;> cases hn
  · cases hv
  · rw [hr, String.toList_ofList, List.take_length]
    exact Token.spells_one hc hs
  · obtain ⟨rfl, -⟩ | ⟨rfl, -⟩ := Token.named_ok (hn 0) <;> cases hv

theorem Readable.isDuration {body : String} (h : (Literal.duration body).Readable) :
    Calendar.isDuration body.toList = true := by
  obtain ⟨c, word, hc, hs⟩ := h.exists_scans
  obtain hn | ⟨_, hn⟩ | ⟨hn, -⟩ | ⟨name, body, -, hn⟩ := hs.literal hc
  · cases hn
  · cases hn
  · cases hn
  · obtain ⟨hv, hd⟩ | ⟨hv, -⟩ := Token.named_ok (hn 0)
    · cases hv
      exact hd
    · cases hv

theorem Readable.isWord {type member : String} (h : (Literal.enum type member).Readable) :
    Token.IsWord type.toList ∧ '.' ∈ type.toList := by
  obtain ⟨c, word, hc, hs⟩ := h.exists_scans
  obtain hn | ⟨_, hn⟩ | ⟨hn, -⟩ | ⟨name, body, hw, hn⟩ := hs.literal hc
  · cases hn
  · cases hn
  · cases hn
  · obtain ⟨hv, -⟩ | ⟨hv, hp⟩ := Token.named_ok (hn 0)
    · cases hv
    · cases hv
      exact ⟨hw, hp⟩

theorem spells_duration {body : String} (h : Calendar.isDuration body.toList = true) :
    Spells (Literal.duration body).render.toList [.literal (.duration body)] := by
  have hw : Token.IsWord "duration".toList := by decide
  have hq : '\'' ∉ body.toList := Calendar.not_mem_of_isDuration (by decide) (by decide) h
  have hn : ∀ p, Word.named "duration" body p = .ok (.duration body) := by
    intro p
    rw [Word.named, if_pos (sameName_self _), if_pos h]
  have hs := Token.spells_named hw hq hn
  simpa [Literal.render] using hs

theorem Enclosable.spells (h : value.Enclosable) : Spells value.render.toList [.literal value] := by
  cases value with
  | string text => exact Token.spells_string text
  | int32 n => exact Token.spells_int32 n
  | int64 n => exact Token.spells_int64 h
  | date | timeOfDay | dateTimeOffset | guid => exact Readable.spells_verbatim h rfl
  | duration body => exact spells_duration (Readable.isDuration h)
  | enum type member =>
    obtain ⟨hr, hm⟩ := h
    obtain ⟨hw, hp⟩ := hr.isWord
    exact Token.spells_enum hw hp hm
  | null | boolean | decimal | single | double => exact h.elim

/-- Literals with commas between them. -/
theorem spells_intercalate : ∀ {values : List Literal}, (∀ v ∈ values, v.Enclosable) →
    Spells (", ".intercalate (values.map render)).toList ((values.map TokenKind.literal).intersperse .comma)
  | [], _ => Token.spells_nil
  | [v], h => by
    have hv := (h v List.mem_cons_self).spells
    simpa using hv
  | v :: w :: values, h => by
    have hv := (h v List.mem_cons_self).spells
    have ih := spells_intercalate fun u hu => h u (List.mem_cons_of_mem v hu)
    have hcomma := (ih.blank (show isBlank ' ' = true by decide)).sign (by decide)
      (show Token.Scans ',' _ .comma 0 from .sign (by simp [Token.signs]))
    have hall := hv.append (Token.breaks_cons Token.break_comma _) hcomma
    simpa using hall

/-- No literal breaks out of a list of literals. -/
theorem read_enclosed {values : List Literal} (h : ∀ v ∈ values, v.Enclosable) :
    ∃ ts, Token.read ("(" ++ ", ".intercalate (values.map render) ++ ")") = .ok ts ∧
      ts.map Token.kind = .openParen :: ((values.map TokenKind.literal).intersperse .comma ++ [.closeParen]) := by
  have hclose : Spells [')'] [.closeParen] := by
    refine Token.spells_one (by decide) (.sign ?_)
    simp [Token.signs]
  have hall := ((spells_intercalate h).append (Token.breaks_cons Token.break_closeParen []) hclose).openParen
  have htext : ("(" ++ ", ".intercalate (values.map render) ++ ")").toList =
      '(' :: ((", ".intercalate (values.map render)).toList ++ [')']) := by simp
  rw [Token.read, htext]
  exact hall 0

theorem readable_of_any (text : String) (h : (Token.read text).toOption.any
    (fun ts => ts.any fun t => decide (t.kind = .literal value)) = true) : value.Readable := by
  obtain ⟨ts, hts, hany⟩ := exists_of_any h
  obtain ⟨t, ht, hk⟩ := List.any_eq_true.mp hany
  exact ⟨text, ts, hts, t, ht, of_decide_eq_true hk⟩

/-- Quotes, commas and parentheses in a string stay in the string. -/
theorem read_enclosed_quotes : ∃ values ts,
    values = [string "'), ('", int32 (-7), int64 3000000000, date "2024-02-29",
      guid "01234567-89ab-cdef-0123-456789abcdef", duration "P1DT2.5S", enum "Model.Color" "Red"] ∧
    Token.read ("(" ++ ", ".intercalate (values.map render) ++ ")") = .ok ts ∧
    ts.map Token.kind = .openParen :: ((values.map TokenKind.literal).intersperse .comma ++ [.closeParen]) := by
  have hdate : (date "2024-02-29").Readable := readable_of_any "2024-02-29" (by decide +kernel)
  have hguid : (guid "01234567-89ab-cdef-0123-456789abcdef").Readable :=
    readable_of_any "01234567-89ab-cdef-0123-456789abcdef" (by decide +kernel)
  have hduration : (duration "P1DT2.5S").Readable := readable_of_any "duration'P1DT2.5S'" (by decide +kernel)
  have henum : (enum "Model.Color" "Red").Readable := readable_of_any "Model.Color'Red'" (by decide +kernel)
  have hlong : (int64 3000000000).Enclosable := by
    rw [Enclosable]
    decide
  have hall : ∀ v ∈ [string "'), ('", int32 (-7), int64 3000000000, date "2024-02-29",
      guid "01234567-89ab-cdef-0123-456789abcdef", duration "P1DT2.5S", enum "Model.Color" "Red"], v.Enclosable := by
    simp only [List.forall_mem_cons]
    exact ⟨trivial, trivial, hlong, hdate, hguid, hduration, ⟨henum, by decide⟩, nofun⟩
  obtain ⟨ts, hts, hk⟩ := read_enclosed hall
  exact ⟨_, ts, rfl, hts, hk⟩

end Literal

end FilterGuard
