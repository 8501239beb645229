import FilterGuard.Proofs.Spans
import Mathlib.Data.Nat.Digits.Defs

/-!
# Integers and signs

Digits, behind a minus or not, are one literal with the value that they have in the
decimal system, of the narrowest type that has it. In front of a name a minus is the
operator, except where the name begins like the infinity that is written with a minus.
-/

namespace FilterGuard.Token
open Text

/-- Whether a text is read as one literal. -/
def ReadsAs (text : String) (value : Literal) : Prop :=
  read text = .ok [⟨.literal value, text, 0⟩]

instance (text : String) (value : Literal) : Decidable (ReadsAs text value) :=
  inferInstanceAs (Decidable (_ = _))

theorem IsLiteralWord.read_eq {c : Char} {cs : List Char} (h : IsLiteralWord c cs) {text : String}
    (ht : text.toList = c :: cs) : read text =
      match Word.classify text.toList with
      | .ok value => .ok [⟨.literal value, text, 0⟩]
      | .error form => .error (.invalidLiteral text form 0) := by
  have hread := h.readFrom_eq 0
  rwa [← ht, String.ofList_toList] at hread

/-! ## Values -/

theorem decimalValue_eq_ofDigits (ds : List Char) :
    decimalValue ds = Nat.ofDigits 10 (ds.reverse.map digitValue) := by
  induction ds using List.reverseRecOn with
  | nil => rfl
  | append_singleton ds d ih =>
    rw [decimalValue_append_digit, ih, List.reverse_append, List.reverse_singleton, List.singleton_append,
      List.map_cons, Nat.ofDigits_cons, Nat.add_comm]

/-- The integer that digits stand for, behind a minus or not. -/
def integerValue (sign ds : List Char) : Int :=
  let magnitude : Nat := Nat.ofDigits 10 (ds.reverse.map digitValue)
  if sign = ['-'] then -magnitude else magnitude

/-- Whether an integer can be written with so many bits in two's complement. -/
def Fits (bits : Nat) (n : Int) : Prop :=
  -2 ^ (bits - 1) ≤ n ∧ n < 2 ^ (bits - 1)

instance (bits : Nat) (n : Int) : Decidable (Fits bits n) :=
  inferInstanceAs (Decidable (_ ∧ _))

theorem fits_32_iff {n : Int} : Fits 32 n ↔ Int32.minValue.toInt ≤ n ∧ n ≤ Int32.maxValue.toInt := by
  have hmin : Int32.minValue.toInt = -2147483648 := by decide
  have hmax : Int32.maxValue.toInt = 2147483647 := by decide
  rw [Fits, hmin, hmax]
  omega

theorem fits_64_iff {n : Int} : Fits 64 n ↔ Int64.minValue.toInt ≤ n ∧ n ≤ Int64.maxValue.toInt := by
  have hmin : Int64.minValue.toInt = -9223372036854775808 := by decide
  have hmax : Int64.maxValue.toInt = 9223372036854775807 := by decide
  rw [Fits, hmin, hmax]
  omega

theorem Fits.of_32 {n : Int} (h : Fits 32 n) : Fits 64 n := by
  rw [Fits] at h ⊢
  omega

namespace IsInteger

variable {word sign ds : List Char} (h : IsInteger word sign ds)
include h

theorem readInteger_value : readInteger word = some (integerValue sign ds) := by
  rw [h.readInteger_eq, decimalValue_eq_ofDigits]
  rfl

theorem integerLiteral_eq : Word.integerLiteral word =
    if Fits 32 (integerValue sign ds) then .int32 (Int32.ofInt (integerValue sign ds))
    else if Fits 64 (integerValue sign ds) then .int64 (Int64.ofInt (integerValue sign ds))
    else .decimal (String.ofList word) := by
  simp only [Word.integerLiteral, h.readInteger_value, fits_32_iff, fits_64_iff]

theorem longLiteral_eq : Word.longLiteral word =
    if Fits 64 (integerValue sign ds) then some (.int64 (Int64.ofInt (integerValue sign ds))) else none := by
  simp only [Word.longLiteral, h.readInteger_value, fits_64_iff]

end IsInteger

section
variable {text : String} {sign ds : List Char} (h : IsInteger text.toList sign ds)
include h

theorem readsAs_integerLiteral : ReadsAs text (Word.integerLiteral text.toList) := by
  obtain ⟨c, cs, ht, hw⟩ := h.exists_isLiteralWord isSuffix_nil
  rw [List.append_nil] at ht
  have hread := hw.read_eq ht
  rwa [h.classify] at hread

theorem read_long {suffix : String} (hs : suffix ∈ ["l", "L"]) : read (text ++ suffix) =
    match Word.longLiteral text.toList with
    | some value => .ok [⟨.literal value, text ++ suffix, 0⟩]
    | none => .error (.invalidLiteral (text ++ suffix) .int64 0) := by
  obtain ⟨c, hsuffix, hl⟩ : ∃ c, suffix.toList = [c] ∧ (c = 'l' ∨ c = 'L') := by
    simp only [List.mem_cons, List.not_mem_nil, or_false] at hs
    obtain rfl | rfl := hs
    · exact ⟨'l', rfl, .inl rfl⟩
    · exact ⟨'L', rfl, .inr rfl⟩
  obtain ⟨d, cs, ht, hw⟩ := h.exists_isLiteralWord (isSuffix_long hl)
  have htext : (text ++ suffix).toList = text.toList ++ [c] := by rw [String.toList_append, hsuffix]
  rw [hw.read_eq (htext.trans ht), htext, h.classify_append (isSuffix_long hl), h.number_long hl]
  cases Word.longLiteral text.toList <;> rfl

/-- An integer is one literal of its value, of the first type that has this value out of
integers of 32 bits, integers of 64 bits and decimals, which keep the text. With a suffix
it is an integer of 64 bits, or an error. -/
theorem read_integer :
    (Fits 32 (integerValue sign ds) → ∃ v : Int32, v.toInt = integerValue sign ds ∧ ReadsAs text (.int32 v)) ∧
    (¬ Fits 32 (integerValue sign ds) → Fits 64 (integerValue sign ds) →
      ∃ v : Int64, v.toInt = integerValue sign ds ∧ ReadsAs text (.int64 v)) ∧
    (¬ Fits 64 (integerValue sign ds) → ReadsAs text (.decimal text)) ∧
    ∀ suffix ∈ ["l", "L"],
      (Fits 64 (integerValue sign ds) →
        ∃ v : Int64, v.toInt = integerValue sign ds ∧ ReadsAs (text ++ suffix) (.int64 v)) ∧
      (¬ Fits 64 (integerValue sign ds) →
        read (text ++ suffix) = .error (.invalidLiteral (text ++ suffix) .int64 0)) := by
  have hread := readsAs_integerLiteral h
  rw [h.integerLiteral_eq, String.ofList_toList] at hread
  refine ⟨fun h32 => ?_, fun h32 h64 => ?_, fun h64 => ?_, fun suffix hs => ⟨fun h64 => ?_, fun h64 => ?_⟩⟩
  · rw [if_pos h32] at hread
    exact ⟨_, Int32.toInt_ofInt_of_le h32.1 h32.2, hread⟩
  · rw [if_neg h32, if_pos h64] at hread
    exact ⟨_, Int64.toInt_ofInt_of_le h64.1 h64.2, hread⟩
  · rwa [if_neg (mt Fits.of_32 h64), if_neg h64] at hread
  · have hlong := read_long h hs
    rw [h.longLiteral_eq, if_pos h64] at hlong
    exact ⟨_, Int64.toInt_ofInt_of_le h64.1 h64.2, hlong⟩
  · have hlong := read_long h hs
    rwa [h.longLiteral_eq, if_neg h64] at hlong

end

/-- Zeros in front do not count, and the range of 32 bits goes one further below zero. -/
theorem read_integer_limits : (∃ v : Int32, v.toInt = -2147483648 ∧ ReadsAs "-002147483648" (.int32 v)) ∧
    (∃ v : Int64, v.toInt = 2147483648 ∧ ReadsAs "2147483648" (.int64 v)) ∧
    ReadsAs "-9223372036854775809" (.decimal "-9223372036854775809") ∧
    read "9223372036854775808L" = .error (.invalidLiteral "9223372036854775808L" .int64 0) := by
  have hleast : IsInteger "-002147483648".toList ['-'] "002147483648".toList := by decide
  have hnext : IsInteger "2147483648".toList [] "2147483648".toList := by decide
  have hbelow : IsInteger "-9223372036854775809".toList ['-'] "9223372036854775809".toList := by decide
  have habove : IsInteger "9223372036854775808".toList [] "9223372036854775808".toList := by decide
  exact ⟨(read_integer hleast).1 (by decide), (read_integer hnext).2.1 (by decide) (by decide),
    (read_integer hbelow).2.2.1 (by decide),
    ((read_integer habove).2.2.2 "L" (by decide)).2 (by decide)⟩

/-! ## A minus in front of a name -/

theorem Splits.not_isDigit_head {p : Nat} {cs : List Char} {t : Token} {name : String} (h : Splits p cs [t])
    (ht : t.kind = .identifier name) : cs.head?.any Char.isDigit = false := by
  cases h with
  | blank hc => exact not_isDigit_of_isBlank hc
  | @token _ _ _ _ kind _ hc hs =>
    obtain rfl : kind = .identifier name := ht
    exact (identifier_of_scans hs).1.digit

/-- Behind a minus everything is read as it is alone, unless the minus is a part of it. -/
theorem read_minus {text : String} {ts : List Token} (h : read text = .ok ts)
    (hi : ¬ ['I', 'N', 'F'] <+: text.toList) (hd : text.toList.head?.any Char.isDigit = false) :
    read ("-" ++ text) = .ok (⟨.minus, "-", 0⟩ :: ts.map (shift 1)) := by
  have htake : text.toList.take 3 ≠ ['I', 'N', 'F'] := fun ht => hi (List.prefix_iff_eq_take.mpr ht.symm)
  have hs : Splits 0 ('-' :: ([] ++ text.toList)) (⟨.minus, String.ofList ['-'], 0⟩ :: ts.map (shift 1)) :=
    .token (by decide) (.minus rfl htake hd) ((splits_iff.mp h).shift 1)
  have hlist : ("-" ++ text).toList = '-' :: ([] ++ text.toList) := by simp
  rw [read, hlist]
  exact splits_iff.mpr hs

theorem read_minus_infinity {text rest : String} (h : text = "INF" ++ rest) : read ("-" ++ text) =
    (readFrom 0 4 rest.toList).map (⟨.literal (.double "-INF"), "-INF", 0⟩ :: ·) := by
  have hscan : scan 0 '-' (['I', 'N', 'F'] ++ rest.toList) = .ok (.literal (.double "-INF"), 3) :=
    (scan_hyphen 0 _).trans (if_pos rfl)
  have hlist : ("-" ++ text).toList = '-' :: (['I', 'N', 'F'] ++ rest.toList) := by simp [h]
  rw [read, hlist, readFrom, if_neg (by decide), ok_bind hscan]
  have hskip : readFrom 3 (0 + '-'.utf8Size) (['I', 'N', 'F'] ++ rest.toList) = readFrom 0 4 rest.toList :=
    readFrom_skip ['I', 'N', 'F'] _
  dsimp only
  rw [hskip]
  cases readFrom 0 4 rest.toList <;> rfl

/-- A minus in front of an identifier is the operator exactly if the text does not begin
like infinity. If it does, the minus and these letters are read as the infinity below all
numbers, whatever stands behind them. -/
theorem read_minus_identifier {text name : String} {t : Token} (h : read text = .ok [t])
    (ht : t.kind = .identifier name) :
    (read ("-" ++ text) = .ok [⟨.minus, "-", 0⟩, shift 1 t] ↔ ¬ ['I', 'N', 'F'] <+: text.toList) ∧
    ∀ rest, text = "INF" ++ rest → read ("-" ++ text) =
      (readFrom 0 4 rest.toList).map (⟨.literal (.double "-INF"), "-INF", 0⟩ :: ·) := by
  refine ⟨⟨?_, fun hi => read_minus h hi ((splits_iff.mp h).not_isDigit_head ht)⟩, fun _ => read_minus_infinity⟩
  rintro hread ⟨rest, hrest⟩
  have htext : text = "INF" ++ String.ofList rest := by rw [← String.toList_inj, ← hrest]; simp
  rw [read_minus_infinity htext] at hread
  obtain ⟨ts, -, hts⟩ := map_ok hread
  cases hts

/-- Blanks and the letters of infinity in another case keep the name apart from the minus. -/
theorem read_minus_identifier_inf : read "-Info" = .ok [⟨.minus, "-", 0⟩, ⟨.identifier "Info", "Info", 1⟩] ∧
    read "- INFO " = .ok [⟨.minus, "-", 0⟩, ⟨.identifier "INFO", "INFO", 2⟩] := by
  have hinfo : read "Info" = .ok [⟨.identifier "Info", "Info", 0⟩] := by decide +kernel
  have hblank : read " INFO " = .ok [⟨.identifier "INFO", "INFO", 1⟩] := by decide +kernel
  exact ⟨(read_minus_identifier hinfo rfl).1.mpr (by decide), (read_minus_identifier hblank rfl).1.mpr (by decide)⟩

/-- A name that only begins like infinity loses these letters to the minus. -/
theorem read_minus_cut : read "INFO" = .ok [⟨.identifier "INFO", "INFO", 0⟩] ∧
    read "-INFO" = .ok [⟨.literal (.double "-INF"), "-INF", 0⟩, ⟨.identifier "O", "O", 4⟩] := by
  decide +kernel

end FilterGuard.Token
