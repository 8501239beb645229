import FilterGuard.Proofs.Adjacent
import FilterGuard.Proofs.RoundTrip
import FilterGuard.Proofs.Spelling
import Mathlib.Data.List.TakeWhile

/-!
# Names and literals as text

A name is read as one identifier where nothing goes on with it. Truth values, 32-bit
integers, strings and members of enumerations are read back from their texts, so they
have a place in the grammar.
-/

namespace FilterGuard
open Text

namespace Token

variable {cs behind : List Char}

/-! ## Names -/

theorem not_mem_nameTail : ∀ cs : List Char, '-' ∉ nameTail cs
  | [] => nofun
  | c :: cs => by
    have ih := not_mem_nameTail cs
    rw [nameTail]
    by_cases hw : (isWordChar c || c = '_') = true
    · rw [if_pos hw, List.mem_cons, not_or]
      refine ⟨?_, ih⟩
      rintro rfl
      exact absurd hw (by decide)
    · rw [if_neg hw]
      split
      · next hp =>
        have hc : c = '.' := of_decide_eq_true (Bool.and_eq_true_iff.mp hp).1
        rw [hc, List.mem_cons, not_or]
        exact ⟨by decide, ih⟩
      · exact List.not_mem_nil

theorem IsWord.not_mem : ∀ {cs : List Char}, IsWord cs → '-' ∉ cs
  | c :: cs, ⟨hc, hcs⟩ => by
    rw [List.mem_cons, not_or]
    refine ⟨?_, hcs ▸ not_mem_nameTail cs⟩
    rintro rfl
    exact absurd hc.mark (by decide)

theorem afterGuid_eq_none (hc : '-' ∉ cs) (hb : ∀ d ∈ behind.head?, Word.isHex d = false ∧ d ≠ '-') :
    Word.afterGuid (cs ++ behind) = none := by
  -- The ninth character would be a hyphen, and the eight before it hexadecimal digits.
  have hdrop : ∀ rest, ((cs ++ behind).take 8).length = 8 → ((cs ++ behind).take 8).all Word.isHex = true →
      (cs ++ behind).drop 8 ≠ '-' :: rest := by
    intro rest hlen hall heq
    by_cases h8 : 8 ≤ cs.length
    · rw [List.drop_append_of_le_length h8] at heq
      cases hd : cs.drop 8 with
      | nil =>
        rw [hd, List.nil_append] at heq
        exact (hb '-' (by rw [heq]; rfl)).2 rfl
      | cons d more =>
        rw [hd] at heq
        cases heq
        exact hc (List.mem_of_mem_drop (hd ▸ List.mem_cons_self))
    · cases behind with
      | nil =>
        rw [List.append_nil, List.length_take] at hlen
        omega
      | cons d more =>
        have hd : d ∈ (cs ++ d :: more).take 8 := by
          rw [List.take_append, List.mem_append]
          obtain ⟨n, hn⟩ : ∃ n, 8 - cs.length = n + 1 := ⟨7 - cs.length, by omega⟩
          exact .inr (by rw [hn, List.take_succ_cons]; exact List.mem_cons_self)
        have hhex := List.all_eq_true.mp hall d hd
        rw [(hb d rfl).1] at hhex
        cases hhex
  rw [Word.afterGuid, Word.guidGroups, Word.afterGroups.eq_def]
  dsimp only
  split
  · next hn =>
    split
    · contradiction
    · next heq => exact absurd heq (hdrop _ hn.1 hn.2)
    · rfl
  · rfl

theorem not_isHex_of_name {d : Char} (hd : (isWordChar d || d = '_') = false) : Word.isHex d = false := by
  refine Bool.eq_false_iff.mpr fun hhex => ?_
  have ha : (d.isAlpha || d.isDigit) = true := isAlphanum_of_isHex hhex
  have hw : isWordChar d = true := by
    rw [isWordChar]
    obtain ha | ha := Bool.or_eq_true_iff.mp ha
    · rw [isLetter_of_isAlpha ha, Bool.true_or]
    · rw [isNumeral_of_isDigit ha, Bool.or_true]
  rw [hw] at hd
  cases hd

/-- Whether a text ends a name in front of it, and does not make it anything else. -/
def EndsWord (behind : List Char) : Prop :=
  EndsName behind ∧ '-' ∉ behind.head?

theorem endsWord_nil : EndsWord [] :=
  ⟨nofun, nofun⟩

theorem endsWord_colon (cs : List Char) : EndsWord (':' :: cs) :=
  ⟨by rintro _ ⟨⟩; decide, by simp⟩

theorem not_startsWithGuid (hc : '-' ∉ cs) (hb : EndsWord behind) : startsWithGuid (cs ++ behind) = false := by
  have hguid : Word.afterGuid (cs ++ behind) = none := afterGuid_eq_none hc fun d hd =>
    ⟨not_isHex_of_name (hb.1 d hd).1, fun hm => hb.2 (hm ▸ hd)⟩
  rw [startsWithGuid, hguid]

theorem IsIdentifier.spells {name : String} (h : IsIdentifier name) (hb : EndsWord behind) (hq : '\'' ∉ behind.head?)
    {kinds : List TokenKind} (hk : Spells behind kinds) :
    Spells (name.toList ++ behind) (.identifier name :: kinds) := by
  have hw := h.word
  cases hname : name.toList with
  | nil =>
    rw [hname] at hw
    exact hw.elim
  | cons c cs =>
    rw [hname] at hw
    have hguid := not_startsWithGuid hw.not_mem hb
    rw [List.cons_append] at hguid
    obtain ⟨hc, hcs⟩ := hw
    have hname : String.ofList (c :: cs) = name := by rw [← hname, String.ofList_toList]
    have htail : nameTail (cs ++ behind) = cs := (nameTail_behind hb.1 cs).trans hcs
    have hs := Scans.name hc.opens hguid (by rwa [htail, List.drop_left])
    rw [htail, hname, kindOfName, if_neg (not_or.mpr h.number)] at hs
    exact .token hc.blank hs hk

theorem IsIdentifier.spells_self {name : String} (h : IsIdentifier name) : Spells name.toList [.identifier name] := by
  have hs : Spells (name.toList ++ []) [.identifier name] := by
    apply h.spells endsWord_nil _ spells_nil
    nofun
  rwa [List.append_nil] at hs

/-! ### Other spellings -/

theorem eq_or_isAlpha {c d : Char} (h : c.toLower = d.toLower) : c = d ∨ c.isAlpha = true ∧ d.isAlpha = true := by
  have hupper : ∀ {c : Char}, 'A'.val ≤ c.val ∧ c.val ≤ 'Z'.val → c.isAlpha = true := fun hc =>
    Bool.or_eq_true_iff.mpr (.inl (decide_eq_true hc))
  have hlower : ∀ {c d : Char}, 'A'.val ≤ c.val ∧ c.val ≤ 'Z'.val → c.toLower = d → d.isAlpha = true := by
    rintro c d hc rfl
    have hval : c.toLower.val = c.val + 32 := congrArg Char.val (dif_pos hc)
    have hn : 65 ≤ c.val.toNat ∧ c.val.toNat ≤ 90 := hc
    have h32 : (32 : UInt32).toNat = 32 := rfl
    refine Bool.or_eq_true_iff.mpr (.inr (Bool.and_eq_true_iff.mpr ⟨decide_eq_true ?_, decide_eq_true ?_⟩))
    · rw [hval, ge_iff_le, UInt32.le_iff_toNat_le, UInt32.toNat_add, h32]
      show 97 ≤ _
      omega
    · rw [hval, UInt32.le_iff_toNat_le, UInt32.toNat_add, h32]
      show _ ≤ 122
      omega
  by_cases hc : 'A'.val ≤ c.val ∧ c.val ≤ 'Z'.val
  · by_cases hd : 'A'.val ≤ d.val ∧ d.val ≤ 'Z'.val
    · exact .inr ⟨hupper hc, hupper hd⟩
    · have hd : d.toLower = d := dif_neg hd
      exact .inr ⟨hupper hc, hlower hc (h.trans hd)⟩
  · have hc : c.toLower = c := dif_neg hc
    by_cases hd : 'A'.val ≤ d.val ∧ d.val ≤ 'Z'.val
    · exact .inr ⟨hlower hd (h.symm.trans hc), hupper hd⟩
    · have hd : d.toLower = d := dif_neg hd
      exact .inl (hc.symm.trans (h.trans hd))

/-- What holds of all letters of ASCII does not depend on their case. -/
theorem alike_of_toLower {p : Char → Bool} (hp : ∀ c : Char, c.isAlpha = true → p c = true) {c d : Char}
    (h : c.toLower = d.toLower) : p c = p d := by
  obtain rfl | ⟨hc, hd⟩ := eq_or_isAlpha h
  · rfl
  · rw [hp c hc, hp d hd]

theorem begins_of_isAlpha {c : Char} (h : c.isAlpha = true) : Begins c := by
  have hc : 65 ≤ c.toNat ∧ c.toNat ≤ 90 ∨ 97 ≤ c.toNat ∧ c.toNat ≤ 122 := by
    obtain h | h := Bool.or_eq_true_iff.mp h
    · exact .inl (of_decide_eq_true h)
    · obtain ⟨ha, hz⟩ := Bool.and_eq_true_iff.mp h
      exact .inr ⟨of_decide_eq_true ha, of_decide_eq_true hz⟩
  refine ⟨?_, ?_, ?_, ?_⟩
  · simp only [isBlank, within, blankRanges, List.any_cons, List.any_nil, Bool.or_false, Bool.or_eq_false_iff,
      Bool.and_eq_false_iff, decide_eq_false_iff_not]
    omega
  · intro hm
    simp only [marks, List.mem_cons, List.not_mem_nil, or_false] at hm
    obtain rfl | rfl | rfl | rfl | rfl | rfl | rfl := hm <;> exact absurd h (by decide)
  · refine Bool.eq_false_iff.mpr fun hd => ?_
    rw [Char.isDigit, Bool.and_eq_true, decide_eq_true_eq, decide_eq_true_eq] at hd
    have hd : 48 ≤ c.toNat ∧ c.toNat ≤ 57 := hd
    omega
  · rw [startsName, isLetter_of_isAlpha h]
    rfl

theorem nameTail_of_map : ∀ {cs cs' : List Char}, cs'.map Char.toLower = cs.map Char.toLower → nameTail cs = cs →
    nameTail cs' = cs'
  | [], [], _, _ => rfl
  | c :: cs, c' :: cs', hm, h => by
    obtain ⟨hc, hcs⟩ := List.cons.inj hm
    have hw : (isWordChar c' || c' = '_') = (isWordChar c || c = '_') :=
      alike_of_toLower (p := fun c => isWordChar c || c = '_')
        (fun c hc => by simp [isWordChar, isLetter_of_isAlpha hc]) hc
    have hp : (decide (c' = '.')) = decide (c = '.') := by
      obtain rfl | ⟨hc', hc⟩ := eq_or_isAlpha hc
      · rfl
      · have hne : ∀ c : Char, c.isAlpha = true → c ≠ '.' := by
          rintro c hc rfl
          exact absurd hc (by decide)
        rw [decide_eq_false (hne c' hc'), decide_eq_false (hne c hc)]
    have hhead : (cs'.head?.any fun d => isLetter d || d = '_') = cs.head?.any fun d => isLetter d || d = '_' := by
      cases cs with
      | nil =>
        cases List.map_eq_nil_iff.mp hcs
        rfl
      | cons d ds =>
        obtain ⟨d', ds', rfl, hd, -⟩ := List.map_eq_cons_iff.mp hcs
        exact alike_of_toLower (p := fun d => isLetter d || d = '_')
          (fun c hc => by simp [isLetter_of_isAlpha hc]) hd
    have ih : nameTail cs = cs → nameTail cs' = cs' := nameTail_of_map hcs
    rw [nameTail] at h ⊢
    rw [hw, hp, hhead]
    by_cases hword : (isWordChar c || c = '_') = true
    · rw [if_pos hword] at h ⊢
      rw [ih (List.cons.inj h).2]
    · rw [if_neg hword] at h ⊢
      by_cases hpoint : (decide (c = '.') && cs.head?.any fun d => isLetter d || d = '_') = true
      · rw [if_pos hpoint] at h ⊢
        rw [ih (List.cons.inj h).2]
      · rw [if_neg hpoint] at h
        cases h

theorem IsIdentifier.of_sameName {name declared : String} (h : IsIdentifier name) (hs : sameName declared name = true)
    (hn : declared ≠ "INF" ∧ declared ≠ "NaN") : IsIdentifier declared := by
  have hmap := congrArg String.toList (sameName_iff.mp hs)
  rw [fold, fold, String.toList_ofList, String.toList_ofList] at hmap
  refine ⟨?_, hn⟩
  have hw := h.word
  cases hname : name.toList with
  | nil =>
    rw [hname] at hw
    exact hw.elim
  | cons c cs =>
    rw [hname] at hw hmap
    obtain ⟨hc, hcs⟩ := hw
    obtain ⟨c', cs', hdeclared, hc', hcs'⟩ := List.map_eq_cons_iff.mp hmap
    rw [hdeclared]
    refine ⟨?_, nameTail_of_map hcs' hcs⟩
    obtain rfl | ⟨hc', -⟩ := eq_or_isAlpha hc'
    · exact hc
    · exact begins_of_isAlpha hc'

/-! ## Literals -/

theorem spells_string (value : String) : Spells (Literal.string value).render.toList [.literal (.string value)] := by
  have hr := Quoted.read_encode value.toList [] nofun
  have ht : (Literal.string value).render.toList = '\'' :: (Quoted.encode value.toList ++ ['\'']) := by
    simp [Literal.render]
  have hlen : (Quoted.encode value.toList).length + 1 = (Quoted.encode value.toList ++ ['\'']).length := by simp
  have hs := Scans.string rfl hr
  rw [String.ofList_toList, hlen] at hs
  rw [ht]
  exact spells_one (by decide) hs

theorem encode_of_not_mem : ∀ {cs : List Char}, '\'' ∉ cs → Quoted.encode cs = cs
  | [], _ => rfl
  | c :: cs, h => by
    rw [List.mem_cons, not_or] at h
    rw [Quoted.encode, encode_of_not_mem h.2]
    exact fun hc => h.1 hc.symm

/-- A name with a dot is not that of a duration. -/
theorem named_enum {type : String} (hp : '.' ∈ type.toList) (member : String) (p : Nat) :
    Word.named type member p = .ok (.enum type member) := by
  have hd : sameName type "duration" = false := by
    refine Bool.eq_false_iff.mpr fun hs => ?_
    have hs := congrArg String.toList (sameName_iff.mp hs)
    rw [fold, fold, String.toList_ofList, String.toList_ofList] at hs
    have hm := List.mem_map_of_mem (f := Char.toLower) hp
    rw [hs] at hm
    exact absurd hm (by decide)
  rw [Word.named, hd, if_neg nofun, List.contains_eq_mem, decide_eq_true hp, if_pos rfl]

theorem endsWord_quote (cs : List Char) : EndsWord ('\'' :: cs) :=
  ⟨by rintro _ ⟨⟩; decide, by simp⟩

/-- A name directly in front of a quoted text without quotes in it. -/
theorem readFrom_named {name body : String} (hw : IsWord name.toList) (hb : '\'' ∉ body.toList) (p : Nat) :
    readFrom 0 p (name.toList ++ '\'' :: (body.toList ++ ['\''])) = (Word.named name body p).map fun value =>
      [⟨.literal value, String.ofList (name.toList ++ '\'' :: (body.toList ++ ['\''])), p⟩] := by
  have hr := Quoted.read_encode body.toList [] nofun
  rw [encode_of_not_mem hb] at hr
  cases hname : name.toList with
  | nil =>
    rw [hname] at hw
    exact hw.elim
  | cons c cs =>
    rw [hname] at hw
    have hends := endsWord_quote (body.toList ++ ['\''])
    have hguid := not_startsWithGuid hw.not_mem hends
    rw [List.cons_append] at hguid
    obtain ⟨hc, hcs⟩ := hw
    have hname : String.ofList (c :: cs) = name := by rw [← hname, String.ofList_toList]
    have htail : nameTail (cs ++ '\'' :: (body.toList ++ ['\''])) = cs := (nameTail_behind hends.1 cs).trans hcs
    have hlen : cs.length + 1 + (body.toList.length + 1) = (cs ++ '\'' :: (body.toList ++ ['\''])).length := by
      simp
      omega
    have hscan : scan p c (cs ++ '\'' :: (body.toList ++ ['\''])) = (Word.named name body p).map fun value =>
        (.literal value, (cs ++ '\'' :: (body.toList ++ ['\''])).length) := by
      rw [hc.opens.scan_eq, scanName, if_neg (Bool.eq_false_iff.mp hguid)]
      dsimp only
      rw [htail, List.drop_left, hname, ← hlen]
      refine (ok_bind (quoted_eq_ok_iff.mpr ⟨_, hr, rfl⟩) _).trans ?_
      rw [String.ofList_toList]
      cases Word.named name body p <;> rfl
    have hread := readFrom_one (x := (Word.named name body p).map .literal) hc.blank (by rwa [map_map])
    rwa [map_map] at hread

theorem spells_named {name body : String} (hw : IsWord name.toList) (hb : '\'' ∉ body.toList) {value : Literal}
    (hn : ∀ p, Word.named name body p = .ok value) :
    Spells (name.toList ++ '\'' :: (body.toList ++ ['\''])) [.literal value] := by
  intro p
  have hread := readFrom_named hw hb p
  rw [hn p] at hread
  exact ⟨_, hread, rfl⟩

theorem spells_enum {type member : String} (ht : IsWord type.toList) (hp : '.' ∈ type.toList)
    (hm : '\'' ∉ member.toList) :
    Spells (Literal.enum type member).render.toList [.literal (.enum type member)] := by
  have h := spells_named ht hm (named_enum hp member)
  simpa [Literal.render] using h

/-! ## Literal words -/

/-- A text that is read as one literal word, whatever that word is. -/
structure IsLiteralWord (c : Char) (cs : List Char) : Prop where
  first : c.isDigit = true ∨ c = '-' ∧ cs.head?.any Char.isDigit = true
  tail : ∀ d ∈ cs, Word.isWordTail d = true

namespace IsLiteralWord

variable {c : Char} (h : IsLiteralWord c cs)
include h

theorem blank : isBlank c = false := by
  obtain hc | ⟨rfl, -⟩ := h.first
  · exact not_isBlank_of_isDigit hc
  · decide

theorem scan_eq (p : Nat) : scan p c cs = scanWord p c cs := by
  obtain hc | ⟨rfl, hc⟩ := h.first
  · exact scan_digit hc p cs
  · exact scan_minus hc p

theorem takeWhile_eq : cs.takeWhile Word.isWordTail = cs :=
  List.takeWhile_eq_self_iff.mpr h.tail

/-- A word is read as a whole, also where it does not have the form that it must have. -/
theorem readFrom_eq (p : Nat) : readFrom 0 p (c :: cs) =
    match Word.classify (c :: cs) with
    | .ok value => .ok [⟨.literal value, String.ofList (c :: cs), p⟩]
    | .error form => .error (.invalidLiteral (String.ofList (c :: cs)) form p) := by
  have hword := h.scan_eq p
  rw [scanWord, h.takeWhile_eq] at hword
  cases hclass : Word.classify (c :: cs) with
  | ok value =>
    rw [hclass] at hword
    exact readFrom_one (x := .ok (.literal value)) h.blank hword
  | error form =>
    rw [hclass] at hword
    exact readFrom_one (x := .error _) h.blank hword

end IsLiteralWord

/-! ## Integers -/

/-- Digits, with a minus in front of them or not. -/
structure IsInteger (word sign ds : List Char) : Prop where
  word : word = sign ++ ds
  sign : sign = [] ∨ sign = ['-']
  ne_nil : ds ≠ []
  digits : ∀ c ∈ ds, c.isDigit = true

instance (word sign ds : List Char) : Decidable (IsInteger word sign ds) :=
  decidable_of_iff (word = sign ++ ds ∧ (sign = [] ∨ sign = ['-']) ∧ ds ≠ [] ∧ ds.all Char.isDigit = true)
    ⟨fun ⟨hw, hs, hn, hd⟩ => ⟨hw, hs, hn, List.all_eq_true.mp hd⟩,
      fun ⟨hw, hs, hn, hd⟩ => ⟨hw, hs, hn, List.all_eq_true.mpr hd⟩⟩

theorem isInteger_toString (n : Int) :
    IsInteger (toString n).toList (if n < 0 then ['-'] else []) (Nat.toDigits 10 n.natAbs) := by
  refine ⟨?_, ?_, Nat.toDigits_ne_nil, fun _ => Json.isDigit_of_mem_digits⟩
  · rw [Json.toList_toString_int]
    split <;> rfl
  · split
    · exact .inr rfl
    · exact .inl rfl

/-- What can stand behind the digits of an integer: a letter, or nothing. -/
structure IsSuffix (suffix : List Char) : Prop where
  short : suffix.length ≤ 1
  letters : ∀ c ∈ suffix, c.isAlpha = true ∧ c ≠ 'e' ∧ c ≠ 'E'

instance (suffix : List Char) : Decidable (IsSuffix suffix) :=
  decidable_of_iff (suffix.length ≤ 1 ∧ (suffix.all fun c => c.isAlpha ∧ c ≠ 'e' ∧ c ≠ 'E') = true)
    ⟨fun ⟨hl, hc⟩ => ⟨hl, by simpa using hc⟩, fun ⟨hl, hc⟩ => ⟨hl, by simpa using hc⟩⟩

namespace IsSuffix

variable {suffix : List Char} (h : IsSuffix suffix)
include h

theorem not_mem {c : Char} (hc : c.isAlpha = false) : c ∉ suffix := by
  intro hm
  rw [(h.letters c hm).1] at hc
  cases hc

theorem not_isDigit_head : ∀ c ∈ suffix.head?, c.isDigit = false :=
  fun c hc => (begins_of_isAlpha (h.letters c (List.mem_of_mem_head? hc)).1).digit

/-- A letter alone is neither a fraction nor an exponent. -/
theorem afterNumber_append {ds : List Char} (hne : ds ≠ []) (hd : ∀ c ∈ ds, c.isDigit = true) :
    Word.afterNumber (ds ++ suffix) = some suffix ∧ Word.afterNumber ('-' :: (ds ++ suffix)) = some suffix := by
  have hdrop : Word.dropExponent (Word.dropFraction suffix) = suffix := by
    match suffix, h with
    | [], _ => rfl
    | [c], h =>
      have hc : c ≠ '.' := fun hc => h.not_mem (c := '.') (by decide) (hc ▸ List.mem_singleton_self c)
      rw [Word.dropFraction]
      · rfl
      · rintro _ ⟨⟩
        exact hc rfl
    | _ :: _ :: _, h => exact absurd h.short (by simp)
  have hafter : (if digitRun (ds ++ suffix) = [] then none
      else some (Word.dropExponent (Word.dropFraction (afterDigits (ds ++ suffix))))) = some suffix := by
    rw [digitRun_append hd h.not_isDigit_head, afterDigits_append hd h.not_isDigit_head, if_neg hne, hdrop]
  refine ⟨?_, hafter⟩
  have hminus : ∀ rest, ds ++ suffix ≠ '-' :: rest := by
    intro rest heq
    obtain ⟨d, ds, rfl⟩ := List.exists_cons_of_ne_nil hne
    cases heq
    exact absurd (hd '-' List.mem_cons_self) (by decide)
  rw [Word.afterNumber]
  · exact hafter
  · exact hminus

end IsSuffix

theorem isSuffix_nil : IsSuffix [] :=
  ⟨by simp, nofun⟩

theorem isSuffix_long {c : Char} (hc : c = 'l' ∨ c = 'L') : IsSuffix [c] := by
  obtain rfl | rfl := hc <;> decide

namespace IsInteger

variable {word sign ds suffix : List Char} (h : IsInteger word sign ds)
include h

theorem not_mem {c : Char} (hc : c.isDigit = false) (hm : c ≠ '-') : c ∉ word := by
  have hds := not_mem_digits h.digits hc
  rw [h.word]
  obtain hs | hs := h.sign
  · simpa [hs] using hds
  · simpa [hs, hm] using hds

theorem readInteger_eq :
    readInteger word = some (if sign = ['-'] then -(decimalValue ds : Int) else decimalValue ds) := by
  have hall : ds ≠ [] ∧ ds.all Char.isDigit = true := ⟨h.ne_nil, List.all_eq_true.mpr h.digits⟩
  rw [h.word]
  obtain hs | hs := h.sign
  · have hminus : ∀ rest, ds ≠ '-' :: rest := by
      rintro rest rfl
      exact absurd (h.digits '-' List.mem_cons_self) (by decide)
    rw [hs, List.nil_append, readInteger]
    · rw [if_pos hall, if_neg (by decide)]
    · exact hminus
  · rw [hs, List.singleton_append, readInteger, if_pos hall, if_pos rfl]

theorem number_append (hs : IsSuffix suffix) : Word.afterNumber (word ++ suffix) = some suffix ∧
    (word ++ suffix).take ((word ++ suffix).length - suffix.length) = word ∧
    (word.any fun c => c = 'e' || c = 'E') = false ∧ word.contains '.' = false := by
  refine ⟨?_, ?_, ?_, ?_⟩
  · obtain ⟨hu, hm⟩ := hs.afterNumber_append h.ne_nil h.digits
    rw [h.word]
    obtain hsign | hsign := h.sign
    · rw [hsign, List.nil_append, hu]
    · rw [hsign, List.singleton_append, List.cons_append, hm]
  · exact List.take_left' (by simp)
  · refine List.any_eq_false.mpr fun c hc he => ?_
    obtain he | he := Bool.or_eq_true_iff.mp he
    · exact h.not_mem (c := 'e') (by decide) (by decide) (of_decide_eq_true he ▸ hc)
    · exact h.not_mem (c := 'E') (by decide) (by decide) (of_decide_eq_true he ▸ hc)
  · rw [List.contains_eq_mem, decide_eq_false (h.not_mem (by decide) (by decide))]

theorem number_eq : Word.number word = .ok (Word.integerLiteral word) := by
  obtain ⟨hafter, htake, hexp, hpoint⟩ := h.number_append isSuffix_nil
  rw [List.append_nil] at hafter htake
  unfold Word.number
  simp only [hafter, htake, hexp, hpoint, Bool.false_eq_true, if_false]

theorem number_long {c : Char} (hc : c = 'l' ∨ c = 'L') :
    Word.number (word ++ [c]) = (Word.longLiteral word).elim (.error .int64) .ok := by
  obtain ⟨hafter, htake, -, -⟩ := h.number_append (isSuffix_long hc)
  unfold Word.number
  simp only [hafter, htake, if_pos hc]
  cases Word.longLiteral word <;> rfl

/-- No other form of literals looks like an integer with a letter behind it. -/
theorem classify_append (hs : IsSuffix suffix) : Word.classify (word ++ suffix) = Word.number (word ++ suffix) := by
  have hds : '-' ∉ ds ++ suffix :=
    List.not_mem_append (not_mem_digits h.digits (by decide)) (hs.not_mem (by decide))
  have hguid : Word.afterGuid (word ++ suffix) ≠ some [] := by
    rw [h.word]
    obtain hsign | hsign := h.sign
    · have hnone : Word.afterGuid (ds ++ suffix ++ []) = none := afterGuid_eq_none hds nofun
      rw [List.append_nil] at hnone
      rw [hsign, List.nil_append, hnone]
      nofun
    · have hhex : Word.isHex '-' = false := by decide
      simp [hsign, Word.afterGuid, Word.guidGroups, Word.afterGroups, hhex]
  have hdate : Word.looksLikeDate (word ++ suffix) = false := by
    have hget : (word ++ suffix)[4]? ≠ some '-' := by
      intro heq
      rw [h.word] at heq
      obtain hsign | hsign := h.sign
      · rw [hsign, List.nil_append] at heq
        exact hds (List.mem_of_getElem? heq)
      · rw [hsign, List.singleton_append, List.cons_append, List.getElem?_cons_succ] at heq
        exact hds (List.mem_of_getElem? heq)
    simp [Word.looksLikeDate, hget]
  have hcolon : ':' ∉ word ++ suffix :=
    List.not_mem_append (h.not_mem (by decide) (by decide)) (hs.not_mem (by decide))
  unfold Word.classify
  simp only [if_neg hguid, hdate, List.contains_eq_mem, decide_eq_false hcolon, Bool.false_eq_true, if_false]

theorem classify : Word.classify word = .ok (Word.integerLiteral word) := by
  have hc := h.classify_append isSuffix_nil
  rw [List.append_nil] at hc
  rw [hc, h.number_eq]

theorem exists_isLiteralWord (hs : IsSuffix suffix) : ∃ c cs, word ++ suffix = c :: cs ∧ IsLiteralWord c cs := by
  have htail : ∀ c ∈ ds ++ suffix, Word.isWordTail c = true := by
    intro c hc
    obtain hc | hc := List.mem_append.mp hc
    · simp [Word.isWordTail, Char.isAlphanum, h.digits c hc]
    · simp [Word.isWordTail, Char.isAlphanum, (hs.letters c hc).1]
  obtain ⟨d, rest, hds⟩ := List.exists_cons_of_ne_nil h.ne_nil
  have hd : d.isDigit = true := h.digits d (hds ▸ List.mem_cons_self)
  rw [hds] at htail
  rw [h.word, hds]
  obtain hsign | hsign := h.sign
  · exact ⟨d, rest ++ suffix, by rw [hsign]; rfl, .inl hd, (List.forall_mem_cons.mp htail).2⟩
  · exact ⟨'-', d :: rest ++ suffix, by rw [hsign]; rfl, .inr ⟨rfl, hd⟩, htail⟩

end IsInteger

theorem readInteger_toString (n : Int) : readInteger (toString n).toList = some n := by
  rw [(isInteger_toString n).readInteger_eq, Json.decimalValue_toDigits]
  by_cases hn : n < 0
  · rw [if_pos hn, if_pos rfl]
    congr 1
    omega
  · rw [if_neg hn, if_neg (by decide)]
    congr 1
    omega

theorem integerLiteral_int32 (n : Int32) : Word.integerLiteral (toString n.toInt).toList = .int32 n := by
  rw [Word.integerLiteral, readInteger_toString]
  dsimp only
  rw [if_pos ⟨n.minValue_le_toInt, n.toInt_le⟩, Int32.ofInt_toInt]

/-- The narrower type takes what it can. -/
theorem integerLiteral_int64 {n : Int64}
    (h : ¬ (Int32.minValue.toInt ≤ n.toInt ∧ n.toInt ≤ Int32.maxValue.toInt)) :
    Word.integerLiteral (toString n.toInt).toList = .int64 n := by
  rw [Word.integerLiteral, readInteger_toString]
  dsimp only
  rw [if_neg h, if_pos ⟨n.minValue_le_toInt, n.toInt_le⟩, Int64.ofInt_toInt]

/-- An integer is one literal, whatever its value. -/
theorem spells_integer (n : Int) :
    Spells (toString n).toList [.literal (Word.integerLiteral (toString n).toList)] := by
  have h := isInteger_toString n
  have hclass := h.classify
  obtain ⟨c, cs, hcs, hw⟩ := h.exists_isLiteralWord isSuffix_nil
  rw [List.append_nil] at hcs
  rw [hcs] at hclass ⊢
  intro p
  have hread := hw.readFrom_eq p
  rw [hclass] at hread
  exact ⟨_, hread, rfl⟩

theorem spells_int32 (n : Int32) : Spells (Literal.int32 n).render.toList [.literal (.int32 n)] := by
  have h := spells_integer n.toInt
  rwa [integerLiteral_int32] at h

theorem spells_int64 {n : Int64} (hn : ¬ (Int32.minValue.toInt ≤ n.toInt ∧ n.toInt ≤ Int32.maxValue.toInt)) :
    Spells (Literal.int64 n).render.toList [.literal (.int64 n)] := by
  have h := spells_integer n.toInt
  rwa [integerLiteral_int64 hn] at h

end Token

end FilterGuard
