import FilterGuard.Json.Read
import FilterGuard.Json.Write

/-!
# What is written is read back

The reader gives back a value that was written, and stops where the text of the
value ends. That holds of plain values: their numbers are integers too short to
leave the range of doubles, and their containers are not too deep. A number ends
where its digits do, so what follows a value must not look like more of it.
-/

namespace FilterGuard.Json

open Text

mutual

/-- A value inside `depth` containers whose text stands for just that value. -/
def Plain (depth : Nat) : Json → Prop
  | integer value => (Nat.toDigits 10 value.natAbs).length < 308
  | array items => depth < depthLimit ∧ PlainItems (depth + 1) items
  | object fields => depth < depthLimit ∧ PlainFields (depth + 1) fields
  | real _ | unreadable => False
  | null | bool _ | string _ => True

def PlainItems (depth : Nat) : List Json → Prop
  | [] => True
  | item :: rest => Plain depth item ∧ PlainItems depth rest

def PlainFields (depth : Nat) : List (String × Json) → Prop
  | [] => True
  | (_, value) :: rest => Plain depth value ∧ PlainFields depth rest

end

theorem plainFields_iff {depth : Nat} {fs : List (String × Json)} :
    PlainFields depth fs ↔ ∀ f ∈ fs, Plain depth f.2 := by
  induction fs with
  | nil => simp [PlainFields]
  | cons f fs ih => simp [PlainFields, ih]

mutual

theorem isReadable_of_plain : ∀ {v : Json} {depth : Nat}, Plain depth v → isReadable v = true
  | null, _, _ | bool _, _, _ | integer _, _, _ | string _, _, _ => by simp [isReadable]
  | real _, _, h | unreadable, _, h => by simp [Plain] at h
  | array items, _, h => by
    simp only [Plain] at h
    simpa [isReadable] using itemsReadable_of_plain h.2
  | object fields, _, h => by
    simp only [Plain] at h
    simpa [isReadable] using fieldsReadable_of_plain h.2

theorem itemsReadable_of_plain : ∀ {vs : List Json} {depth : Nat}, PlainItems depth vs → itemsReadable vs = true
  | [], _, _ => by simp [itemsReadable]
  | v :: vs, _, h => by
    simp only [PlainItems] at h
    simp [itemsReadable, isReadable_of_plain h.1, itemsReadable_of_plain h.2]

theorem fieldsReadable_of_plain : ∀ {fs : List (String × Json)} {depth : Nat},
    PlainFields depth fs → fieldsReadable fs = true
  | [], _, _ => by simp [fieldsReadable]
  | (_, v) :: fs, _, h => by
    simp only [PlainFields] at h
    simp [fieldsReadable, isReadable_of_plain h.1, fieldsReadable_of_plain h.2]

end

/-! ## Strings -/

/-- How a character of a string arrives: the control characters without a letter
of their own are escaped by number. -/
def pieceOf (c : Char) : Piece :=
  if c.toNat < 0x20 ∧ c ∉ ['\n', '\r', '\t', '\x08', '\x0C'] then .unit c.toNat else .char c

/-- The three forms of a character in a string. -/
theorem escapeChar_cases (c : Char) :
    (∃ letter, escapeChar c = ['\\', letter] ∧ letterEscape letter = some c ∧ pieceOf c = .char c) ∨
    (c.toNat < 0x20 ∧
      escapeChar c = ['\\', 'u', '0', '0', Nat.digitChar (c.toNat / 16), Nat.digitChar (c.toNat % 16)] ∧
      pieceOf c = .unit c.toNat) ∨
    (c ≠ '"' ∧ c ≠ '\\' ∧ ¬ c.toNat < 0x20 ∧ escapeChar c = [c] ∧ pieceOf c = .char c) := by
  by_cases hl : c ∈ ['"', '\\', '\n', '\r', '\t', '\x08', '\x0C']
  · left
    simp only [List.mem_cons, List.not_mem_nil, or_false] at hl
    rcases hl with rfl | rfl | rfl | rfl | rfl | rfl | rfl <;> exact ⟨_, rfl, rfl, rfl⟩
  · right
    simp only [List.mem_cons, List.not_mem_nil, or_false, not_or] at hl
    by_cases hc : c.toNat < 0x20
    · left
      simp [escapeChar, pieceOf, hl, hc]
    · right
      simp [escapeChar, pieceOf, hl, hc]

theorem stringPieces_letter {letter c : Char} (h : letterEscape letter = some c) (rest : List Char) :
    stringPieces ('\\' :: letter :: rest) = (stringPieces rest).map fun r => (.char c :: r.1, r.2) := by
  have hu : letterEscape 'u' = none := by decide
  rw [stringPieces.eq_def]
  split
  · next heq => cases heq
  · next heq => cases heq
  · next heq =>
    cases heq
    rw [hu] at h
    cases h
  · next heq =>
    cases heq
    rw [h]
  · next heq => cases heq; simp_all

theorem hexValue_digitChar : ∀ {n : Nat}, n < 16 → hexValue (Nat.digitChar n) = some n := by
  decide

theorem codeUnit_control {n : Nat} (h : n < 0x20) :
    codeUnit '0' '0' (Nat.digitChar (n / 16)) (Nat.digitChar (n % 16)) = some n := by
  have h0 : hexValue '0' = some 0 := by decide
  simp only [codeUnit, h0, hexValue_digitChar (show n / 16 < 16 by omega),
    hexValue_digitChar (show n % 16 < 16 by omega), Option.bind_eq_bind, Option.bind_some, Option.pure_def]
  congr 1
  omega

theorem stringPieces_char {c : Char} (hq : c ≠ '"') (hb : c ≠ '\\') (hc : ¬ c.toNat < 0x20) (rest : List Char) :
    stringPieces (c :: rest) = (stringPieces rest).map fun r => (.char c :: r.1, r.2) := by
  rw [stringPieces.eq_def]
  split
  · next heq => cases heq
  · next heq => exact absurd (List.cons.inj heq).1 hq
  · next heq => exact absurd (List.cons.inj heq).1 hb
  · next heq => exact absurd (List.cons.inj heq).1 hb
  · next heq =>
    cases heq
    rw [if_neg hc]

theorem stringPieces_escapeChar (c : Char) (rest : List Char) :
    stringPieces (escapeChar c ++ rest) = (stringPieces rest).map fun r => (pieceOf c :: r.1, r.2) := by
  rcases escapeChar_cases c with ⟨letter, he, hl, hp⟩ | ⟨hc, he, hp⟩ | ⟨hq, hb, hc, he, hp⟩
  · rw [he, hp]
    exact stringPieces_letter hl rest
  · rw [he, hp]
    simp only [List.cons_append, List.nil_append, stringPieces, codeUnit_control hc]
  · rw [he, hp]
    exact stringPieces_char hq hb hc rest

theorem stringPieces_escaped (cs rest : List Char) :
    stringPieces (cs.flatMap escapeChar ++ '"' :: rest) = some (cs.map pieceOf, rest) := by
  induction cs with
  | nil => simp [stringPieces]
  | cons c cs ih =>
    rw [List.flatMap_cons, List.append_assoc, stringPieces_escapeChar, ih]
    rfl

theorem joinHalves_map_pieceOf (cs : List Char) : joinHalves none (cs.map pieceOf) = cs.map some := by
  induction cs with
  | nil => rfl
  | cons c cs ih =>
    -- An escape by number is far below the surrogates.
    rcases escapeChar_cases c with ⟨_, -, -, hp⟩ | ⟨hc, -, hp⟩ | ⟨-, -, -, -, hp⟩
    · rw [List.map_cons, hp, joinHalves, ih, List.map_cons]
    · have hh : isHighHalf c.toNat = false := by simp [isHighHalf]; omega
      have hl : isLowHalf c.toNat = false := by simp [isLowHalf]; omega
      rw [List.map_cons, hp, joinHalves, hh, hl, if_neg (by simp), if_neg (by simp), ih, Char.ofNat_toNat,
        List.map_cons]
    · rw [List.map_cons, hp, joinHalves, ih, List.map_cons]

theorem allSome_map_some {α : Type u} (as : List α) : allSome (as.map some) = some as := by
  induction as with
  | nil => rfl
  | cons a as ih => rw [List.map_cons, allSome, ih, Option.map_some]

theorem textOf_map_pieceOf (s : String) : textOf (s.toList.map pieceOf) = some s := by
  rw [textOf, joinHalves_map_pieceOf, allSome_map_some, Option.map_some, String.ofList_toList]

/-! ## Numbers -/

/-- Nothing more of a value: what follows is a comma or closes a container. -/
def Ends (rest : List Char) : Prop :=
  ∀ c ∈ rest.head?, c = ',' ∨ c = ']' ∨ c = '\x7d'

theorem decimalValue_toDigits (n : Nat) : decimalValue (Nat.toDigits 10 n) = n :=
  Nat.ofDigitChars_ten_toDigits

theorem isDigit_of_mem_digits {n : Nat} {c : Char} (h : c ∈ Nat.toDigits 10 n) : c.isDigit = true :=
  Nat.isDigit_of_mem_toDigits (by decide) (by decide) h

/-- A numeral does not start with a zero unless it is one. -/
theorem eq_zero_of_toDigits_eq {n : Nat} : ∀ {ds : List Char}, Nat.toDigits 10 n = '0' :: ds → n = 0 := by
  induction n using Nat.strongRecOn with
  | _ n ih =>
    intro ds h
    rcases Nat.lt_or_ge n 10 with hn | hn
    · rw [Nat.toDigits_of_lt_base hn] at h
      exact Nat.digitChar_eq_zero.mp (List.cons.inj h).1
    · rw [Nat.toDigits_of_base_le (by decide) hn] at h
      obtain ⟨c, cs, hcs⟩ := List.exists_cons_of_ne_nil (Nat.toDigits_ne_nil (n := n / 10) (b := 10))
      have hc : c = '0' := by
        rw [hcs] at h
        exact (List.cons.inj h).1
      have h0 : n / 10 = 0 := ih (n / 10) (by omega) (hc ▸ hcs)
      omega

theorem Ends.not_isDigit {rest : List Char} (h : Ends rest) : ∀ c ∈ rest.head?, c.isDigit = false := by
  intro c hc
  rcases h c hc with rfl | rfl | rfl <;> decide

theorem wholePart_toDigits (n : Nat) {rest : List Char} (hr : Ends rest) :
    wholePart (Nat.toDigits 10 n ++ rest) = some (Nat.toDigits 10 n, rest) := by
  have hd : ∀ c ∈ Nat.toDigits 10 n, c.isDigit = true := fun _ => isDigit_of_mem_digits
  unfold wholePart
  rw [digitRun_append hd hr.not_isDigit, afterDigits_append hd hr.not_isDigit]
  split
  · next h => exact absurd h Nat.toDigits_ne_nil
  · next h => rw [h]
  · next hne h =>
    cases eq_zero_of_toDigits_eq h
    rw [Nat.toDigits_zero] at h
    exact absurd (List.cons.inj h).2.symm hne
  · rfl

theorem fraction_of_ends {rest : List Char} (hr : Ends rest) : fraction rest = some (none, rest) := by
  unfold fraction
  split
  · next more =>
    have hc := hr '.' rfl
    simp at hc
  · rfl

theorem exponent_of_ends {rest : List Char} (hr : Ends rest) : exponent rest = some (none, rest) := by
  cases rest with
  | nil => rfl
  | cons c cs =>
    have hc : ¬ (c = 'e' ∨ c = 'E') := by
      rcases hr c rfl with rfl | rfl | rfl <;> decide
    simp only [exponent, if_neg hc]

theorem overflows_short {ds : List Char} (h : ds.length < 308) : overflows ds 0 = false := by
  have hdrop := (List.dropWhile_suffix (l := ds) (· = '0')).length_le
  unfold overflows
  simp only
  split
  · rfl
  · rw [if_neg (by omega), if_pos (by omega)]

/-- A numeral starts with a digit. -/
theorem exists_digit_cons (n : Nat) (rest : List Char) :
    ∃ c cs, Nat.toDigits 10 n ++ rest = c :: cs ∧ c.isDigit = true := by
  obtain ⟨c, cs, hc⟩ := List.exists_cons_of_ne_nil (Nat.toDigits_ne_nil (n := n) (b := 10))
  exact ⟨c, cs ++ rest, by rw [hc, List.cons_append], isDigit_of_mem_digits (hc ▸ List.mem_cons_self)⟩

theorem toList_toString_int (value : Int) :
    (toString value).toList =
      if value < 0 then '-' :: Nat.toDigits 10 value.natAbs else Nat.toDigits 10 value.natAbs := by
  cases value with
  | ofNat n => exact Nat.toList_repr
  | negSucc n =>
    have hs : (toString (Int.negSucc n)).toList = '-' :: (n + 1).repr.toList := String.toList_append
    rw [hs, if_pos (Int.negSucc_lt_zero n), Nat.toList_repr]
    rfl

theorem number_minus {ds rest : List Char} (hw : wholePart (ds ++ rest) = some (ds, rest)) (hr : Ends rest)
    (ho : overflows ds 0 = false) (hz : ds ≠ ['0']) :
    number ('-' :: ds ++ rest) = some (integer (-decimalValue ds), rest) := by
  simp [number, hw, fraction_of_ends hr, exponent_of_ends hr, ho, hz]

theorem number_unsigned {ds rest : List Char} (hd : ∀ more, ds ++ rest ≠ '-' :: more)
    (hw : wholePart (ds ++ rest) = some (ds, rest)) (hr : Ends rest) (ho : overflows ds 0 = false) :
    number (ds ++ rest) = some (integer (decimalValue ds), rest) := by
  unfold number
  split
  next negative unsigned heq =>
  split at heq
  · next more hcs => exact absurd hcs (hd more)
  · cases heq
    simp [hw, fraction_of_ends hr, exponent_of_ends hr, ho]

theorem number_toString {value : Int} (h : (Nat.toDigits 10 value.natAbs).length < 308) {rest : List Char}
    (hr : Ends rest) :
    number ((toString value).toList ++ rest) = some (integer value, rest) := by
  have hw := wholePart_toDigits value.natAbs hr
  have ho := overflows_short h
  have hv := decimalValue_toDigits value.natAbs
  rw [toList_toString_int]
  by_cases hneg : value < 0
  · have hz : Nat.toDigits 10 value.natAbs ≠ ['0'] := fun hz => by
      have := eq_zero_of_toDigits_eq hz
      omega
    rw [if_pos hneg, number_minus hw hr ho hz, hv]
    congr 3
    omega
  · obtain ⟨c, cs, hc, hdigit⟩ := exists_digit_cons value.natAbs rest
    have hd : ∀ more, Nat.toDigits 10 value.natAbs ++ rest ≠ '-' :: more := by
      intro more heq
      cases hc.symm.trans heq
      exact absurd hdigit (by decide)
    rw [if_neg hneg, number_unsigned hd hw hr ho, hv]
    congr 3
    omega

/-! ## Values -/

/-- How a text may go on where a value or the end of a container may stand: with
no blank and no closing bracket. -/
def Opens (cs : List Char) : Prop :=
  ∃ c more, cs = c :: more ∧ isSpace c = false ∧ c ≠ ']'

theorem not_isSpace_of_isDigit {c : Char} (h : c.isDigit = true) : isSpace c = false := by
  simp only [isSpace, Bool.or_eq_false_iff, decide_eq_false_iff_not]
  refine ⟨⟨⟨?_, ?_⟩, ?_⟩, ?_⟩ <;> (rintro rfl; exact absurd h (by decide))

theorem exists_toString_cons (value : Int) (rest : List Char) :
    ∃ c cs, (toString value).toList ++ rest = c :: cs ∧ (c.isDigit = true ∨ c = '-') := by
  rw [toList_toString_int]
  split
  · exact ⟨'-', _, rfl, .inr rfl⟩
  · obtain ⟨c, cs, hc, hdigit⟩ := exists_digit_cons value.natAbs rest
    exact ⟨c, cs, hc, .inl hdigit⟩

theorem opens_write {depth : Nat} {v : Json} (hv : Plain depth v) (rest : List Char) :
    Opens (write v ++ rest) := by
  match v with
  | null | bool true | bool false => exact ⟨_, _, by rw [write]; rfl, by decide, by decide⟩
  | string _ => exact ⟨_, _, by rw [write, writeString]; rfl, by decide, by decide⟩
  | array [] | array (_ :: _) | object [] | object (_ :: _) =>
    exact ⟨_, _, by rw [write]; rfl, by decide, by decide⟩
  | real _ | unreadable => simp [Plain] at hv
  | integer value =>
    obtain ⟨c, cs, hc, hdigit | rfl⟩ := exists_toString_cons value rest
    · refine ⟨c, cs, by rw [write, hc], not_isSpace_of_isDigit hdigit, ?_⟩
      rintro rfl
      exact absurd hdigit (by decide)
    · exact ⟨_, cs, by rw [write, hc], by decide, by decide⟩

theorem skipSpace_cons {c : Char} (h : isSpace c = false) (cs : List Char) : skipSpace (c :: cs) = c :: cs := by
  simp [skipSpace, h]

theorem value_number {c : Char} {cs : List Char} (hc : c.isDigit = true ∨ c = '-') (fuel depth : Nat) :
    value (fuel + 1) depth (c :: cs) = number (c :: cs) := by
  have hs : isSpace c = false := by
    rcases hc with hc | rfl
    · exact not_isSpace_of_isDigit hc
    · decide
  rw [value, skipSpace_cons hs]
  split
  case h_7 => rfl
  all_goals
    next heq =>
    cases heq
    exact absurd hc (by decide)

theorem value_string (s : String) (fuel depth : Nat) (rest : List Char) :
    value (fuel + 1) depth (writeString s ++ rest) = some (string s, rest) := by
  have hp := stringPieces_escaped s.toList rest
  simp [writeString, value, skipSpace_cons (show isSpace '"' = false by decide), hp, textOf_map_pieceOf]

theorem value_bracket {cs : List Char} (h : Opens cs) (fuel depth : Nat) :
    value (fuel + 1) depth ('[' :: cs) =
      (items fuel (depth + 1) cs).map fun r => (sealed depth (array r.1), r.2) := by
  obtain ⟨c, more, rfl, hs, hne⟩ := h
  rw [value, skipSpace_cons (by decide)]
  simp only [skipSpace_cons hs]
  split
  · next heq => exact absurd (List.cons.inj heq).1 hne
  · rfl

theorem value_brace (fuel depth : Nat) (cs : List Char) :
    value (fuel + 1) depth ('\x7b' :: '"' :: cs) =
      (fields fuel (depth + 1) ('"' :: cs)).map fun r => (sealed depth (ofFields r.1), r.2) := by
  rw [value, skipSpace_cons (by decide)]
  simp only [skipSpace_cons (show isSpace '"' = false by decide)]
  rfl

theorem ends_writeItems (vs : List Json) (rest : List Char) : Ends (writeItems vs ++ rest) := by
  cases vs <;> simp [writeItems, Ends]

theorem ends_writeFields (fs : List (String × Json)) (rest : List Char) : Ends (writeFields fs ++ rest) := by
  rcases fs with _ | ⟨⟨key, v⟩, fs⟩ <;> simp [writeFields, Ends]

theorem ofFields_map_some (fs : List (String × Json)) :
    ofFields (fs.map fun f => (some f.1, f.2)) = object fs := by
  have hmap : (fs.map fun f => (some f.1, f.2)).map (fun f : Option String × Json => f.1.map fun key => (key, f.2)) =
      fs.map some := by
    rw [List.map_map]
    rfl
  rw [ofFields, hmap, allSome_map_some]

theorem sealed_of_lt {depth : Nat} (h : depth < depthLimit) (v : Json) : sealed depth v = v :=
  if_pos h

-- The induction is on the fuel, as in the reader; the length of the text bounds how much is used.
mutual

theorem value_write : ∀ (fuel : Nat) {v : Json} {depth : Nat} {rest : List Char}, Plain depth v →
    (write v).length < fuel → Ends rest → value fuel depth (write v ++ rest) = some (v, rest)
  | 0, _, _, _, _, hf, _ => by simp at hf
  | fuel + 1, v, depth, rest, hv, hf, hr => by
    match v with
    | null | bool true | bool false => simp [write, value, skipSpace, isSpace]
    | integer value =>
      obtain ⟨c, cs, hc, hstart⟩ := exists_toString_cons value rest
      rw [Plain] at hv
      rw [write, hc, value_number hstart, ← hc]
      exact number_toString hv hr
    | string s =>
      rw [write]
      exact value_string s fuel depth rest
    | real _ | unreadable => simp [Plain] at hv
    | array [] | object [] =>
      rw [Plain] at hv
      simp [write, value, skipSpace, isSpace, sealed_of_lt hv.1]
    | array (item :: items) =>
      rw [Plain] at hv
      have hopen : Opens (write item ++ writeItems items ++ rest) := by
        rw [List.append_assoc]
        exact opens_write hv.2.1 _
      have hitems := items_write fuel hv.2 (by simpa [write] using hf) rest
      rw [write, List.cons_append, List.cons_append, value_bracket hopen, hitems, Option.map_some,
        sealed_of_lt hv.1]
    | object ((key, value) :: fields) =>
      rw [Plain] at hv
      have hfields := fields_write fuel hv.2 (by simpa [write] using hf) rest
      rw [write]
      simp only [writeString, List.cons_append, List.append_assoc, List.nil_append] at hfields ⊢
      rw [value_brace, hfields, Option.map_some, ofFields_map_some, sealed_of_lt hv.1]

theorem items_write : ∀ (fuel : Nat) {v : Json} {vs : List Json} {depth : Nat}, PlainItems depth (v :: vs) →
    (write v ++ writeItems vs).length < fuel →
    ∀ rest, items fuel depth (write v ++ writeItems vs ++ rest) = some (v :: vs, rest)
  | 0, _, _, _, _, hf, _ => by simp at hf
  | fuel + 1, v, vs, depth, hv, hf, rest => by
    rw [PlainItems] at hv
    rw [List.length_append] at hf
    have hlen : 0 < (writeItems vs).length := by cases vs <;> simp [writeItems]
    have hval := value_write fuel hv.1 (by omega) (ends_writeItems vs rest)
    rw [items, List.append_assoc, hval]
    match vs with
    | [] => simp [writeItems, skipSpace, isSpace]
    | w :: ws =>
      have hrest := items_write fuel hv.2 (by simp [writeItems] at hf ⊢; omega) rest
      rw [List.append_assoc] at hrest
      simp [writeItems, skipSpace, isSpace, hrest]

theorem fields_write : ∀ (fuel : Nat) {key : String} {v : Json} {fs : List (String × Json)} {depth : Nat},
    PlainFields depth ((key, v) :: fs) → (writeString key ++ ':' :: write v ++ writeFields fs).length < fuel →
    ∀ rest, fields fuel depth (writeString key ++ ':' :: write v ++ writeFields fs ++ rest) =
      some (((key, v) :: fs).map fun f => (some f.1, f.2), rest)
  | 0, _, _, _, _, _, hf, _ => by simp at hf
  | fuel + 1, key, v, fs, depth, hv, hf, rest => by
    rw [PlainFields] at hv
    simp only [List.length_append, List.length_cons] at hf
    have hval := value_write fuel hv.1 (by omega) (ends_writeFields fs rest)
    have hkey := stringPieces_escaped key.toList (':' :: (write v ++ (writeFields fs ++ rest)))
    simp only [writeString, List.cons_append, List.append_assoc, List.nil_append]
    rw [fields, skipSpace_cons (by decide)]
    simp only [hkey, skipSpace_cons (show isSpace ':' = false by decide), hval, textOf_map_pieceOf]
    match fs with
    | [] => simp [writeFields, skipSpace, isSpace]
    | (other, w) :: fs =>
      have hrest := fields_write fuel hv.2 (by simp [writeFields] at hf ⊢; omega) rest
      simp only [writeString, List.cons_append, List.append_assoc, List.nil_append] at hrest
      simp [writeFields, writeString, skipSpace, isSpace, hrest]

end

theorem exists_writeFields (fs : List (String × Json)) : ∃ cs, writeFields fs = cs ++ ['\x7d'] := by
  induction fs with
  | nil => exact ⟨[], by rw [writeFields]; rfl⟩
  | cons f fs ih =>
    obtain ⟨key, v⟩ := f
    obtain ⟨cs, hcs⟩ := ih
    exact ⟨',' :: writeString key ++ ':' :: write v ++ cs, by simp [writeFields, hcs]⟩

theorem exists_write_object (fs : List (String × Json)) :
    ∃ cs, write (object fs) = '\x7b' :: (cs ++ ['\x7d']) := by
  match fs with
  | [] => exact ⟨[], by rw [write]; rfl⟩
  | (key, v) :: fs =>
    obtain ⟨cs, hcs⟩ := exists_writeFields fs
    exact ⟨writeString key ++ ':' :: write v ++ cs, by simp [write, hcs]⟩

/-- A text that writes a plain value is read as that value. -/
theorem readChars_write {v : Json} (h : Plain 0 v) : readChars (write v) = some v := by
  have hends : Ends [] := by simp [Ends]
  have hval := value_write (2 * (write v).length + 2) h (by omega) hends
  rw [List.append_nil] at hval
  simp [readChars, hval, skipSpace]

end FilterGuard.Json
