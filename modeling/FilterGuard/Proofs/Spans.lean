import FilterGuard.Proofs.Lexemes
import Mathlib.Data.List.Infix

/-!
# Tokens in their text

Nothing is lost between a text and its tokens: each is the text at its position, they
follow each other without overlap, and what no token covers is blank. A token does not
depend on what stands behind it, so its own text is read as this one token.
-/

namespace FilterGuard.Token
open Text

variable {c : Char} {cs : List Char} {kind : TokenKind} {n : Nat}

/-! ## A token without what follows -/

theorem read_take {value : List Char} (h : Quoted.read cs = some (value, n)) :
    Quoted.read (cs.take n) = some (value, n) := by
  fun_induction Quoted.read cs generalizing value n with
  | case1 => cases h
  | case2 cs ih =>
    obtain ⟨⟨value', m⟩, hr, hv⟩ := Option.map_eq_some_iff.mp h
    cases hv
    simp [Quoted.read, ih hr]
  | case3 cs hq =>
    cases h
    rfl
  | case4 c cs hdouble hc ih =>
    obtain ⟨⟨value', m⟩, hr, hv⟩ := Option.map_eq_some_iff.mp h
    cases hv
    have hc : c ≠ '\'' := fun h => hc h
    simp [Quoted.read, hc, ih hr]

/-- Groups of hexadecimal digits are the same groups in front of anything else. -/
theorem exists_afterGroups {groups : List Nat} {rest : List Char} (h : Word.afterGroups groups cs = some rest) :
    ∃ word, cs = word ++ rest ∧ ∀ more, Word.afterGroups groups (word ++ more) = some more := by
  fun_induction Word.afterGroups groups cs with
  | case1 cs =>
    cases h
    exact ⟨[], rfl, fun _ => rfl⟩
  | case2 n cs hn =>
    cases h
    refine ⟨cs.take n, (List.take_append_drop n cs).symm, ?_⟩
    intro more
    rw [Word.afterGroups, List.take_left' hn.1, if_pos hn, List.drop_left' hn.1]
  | case3 n cs hn m groups rest' hdrop ih =>
    obtain ⟨word, hword, hmore⟩ := ih h
    refine ⟨cs.take n ++ '-' :: word, ?_, ?_⟩
    · rw [List.append_assoc, List.cons_append, ← hword, ← hdrop, List.take_append_drop]
    · intro more
      rw [List.append_assoc, Word.afterGroups.eq_def]
      dsimp only
      rw [List.take_left' hn.1, if_pos hn, List.drop_left' hn.1]
      exact hmore more
  | case4 => cases h
  | case5 => cases h

theorem startsWithGuid_take (h : startsWithGuid cs = true) : startsWithGuid (cs.take Word.guidLength) = true := by
  rw [startsWithGuid] at h
  cases hg : Word.afterGuid cs with
  | none =>
    rw [hg] at h
    cases h
  | some rest =>
    obtain ⟨word, hword, hmore⟩ := exists_afterGroups hg
    have hlen := length_afterGroups (hmore [])
    have hcs : cs.take Word.guidLength = word ++ [] := by
      rw [hword, List.append_nil]
      exact List.take_left' (by simpa [Word.guidGroups, Word.guidLength] using hlen.symm)
    rw [hcs, startsWithGuid, Word.afterGuid, hmore []]
    rfl

theorem take_takeWhile (p : Char → Bool) (cs : List Char) : cs.take (cs.takeWhile p).length = cs.takeWhile p :=
  (List.prefix_iff_eq_take.mp (List.takeWhile_prefix p)).symm

theorem take_nameTail (cs : List Char) : cs.take (nameTail cs).length = nameTail cs :=
  (List.prefix_iff_eq_take.mp (prefix_nameTail cs)).symm

theorem take_quoted (tail body : List Char) (n : Nat) :
    (tail ++ '\'' :: body).take (tail.length + 1 + n) = tail ++ '\'' :: body.take n := by
  rw [Nat.add_assoc, List.take_length_add_append, Nat.add_comm 1, List.take_succ_cons]

theorem head_takeWhile (h : cs.head?.any Char.isDigit = true) :
    (cs.takeWhile Word.isWordTail).head?.any Char.isDigit = true := by
  cases cs with
  | nil => cases h
  | cons d cs =>
    have hd : d.isDigit = true := h
    have hw : Word.isWordTail d = true := by simp [Word.isWordTail, Char.isAlphanum, hd]
    rw [List.takeWhile_cons, if_pos hw]
    exact h

theorem Opens.not_mem (h : Opens c) (cs : List Char) : '-' ∉ c :: nameTail cs := by
  rw [List.mem_cons, not_or]
  refine ⟨?_, not_mem_nameTail cs⟩
  rintro rfl
  exact absurd h.mark (by decide)

/-- A token is the same without what stands behind it. -/
theorem scans_take (h : Scans c cs kind n) : Scans c (cs.take n) kind n := by
  have htail := nameTail_nameTail cs
  cases h with
  | sign hc => exact .sign hc
  | string hc hq => exact .string hc (read_take hq)
  | infinity hc hi => exact .infinity hc (by rw [hi]; rfl)
  | minus hc =>
    refine .minus hc ?_ rfl
    simp
  | word hc hw =>
    have hself : (cs.takeWhile Word.isWordTail).takeWhile Word.isWordTail = cs.takeWhile Word.isWordTail :=
      List.takeWhile_idem
    rw [take_takeWhile]
    have hs := Scans.word (hc.imp id fun h => ⟨h.1, head_takeWhile h.2⟩) (by rwa [hself])
    rwa [hself] at hs
  | guid hc hg =>
    have htext : (c :: cs).take Word.guidLength = c :: cs.take (Word.guidLength - 1) := rfl
    have hg' := startsWithGuid_take hg
    rw [htext] at hg' ⊢
    have hself : (c :: cs.take (Word.guidLength - 1)).take Word.guidLength = c :: cs.take (Word.guidLength - 1) := by
      rw [← htext, List.take_take, Nat.min_self]
    have hs := Scans.guid hc hg'
    rwa [hself] at hs
  | @named body value m literal hc hg hb hq hn =>
    have hsplit : cs = nameTail cs ++ '\'' :: body := by
      rw [← hb]
      exact List.prefix_append_drop (prefix_nameTail cs)
    have hcut : cs.take ((nameTail cs).length + 1 + m) = nameTail cs ++ '\'' :: body.take m := by
      have htake := take_quoted (nameTail cs) body m
      rwa [← hsplit] at htake
    have hends := endsWord_quote (body.take m)
    have hguid := not_startsWithGuid (hc.not_mem cs) hends
    rw [List.cons_append] at hguid
    have hself : nameTail (nameTail cs ++ '\'' :: body.take m) = nameTail cs := (nameTail_behind hends.1 _).trans htail
    have hs := Scans.named hc hguid (by rw [hself, List.drop_left]) (read_take hq) (by rwa [hself])
    rw [hcut]
    rwa [hself] at hs
  | name hc hg hb =>
    rw [take_nameTail]
    have hguid := not_startsWithGuid (hc.not_mem cs) endsWord_nil
    rw [List.append_nil] at hguid
    have hs := Scans.name hc hguid (by simp [htail])
    rwa [htail] at hs

/-! ## Positions -/

theorem utf8ByteSize_ofList : ∀ cs : List Char, (String.ofList cs).utf8ByteSize = byteLength cs
  | [] => by simp [byteLength]
  | c :: cs => by
    rw [String.ofList_cons, String.utf8ByteSize_append, String.utf8ByteSize_singleton, utf8ByteSize_ofList cs, byteLength]

theorem byteLength_toList (text : String) : byteLength text.toList = text.utf8ByteSize := by
  rw [← utf8ByteSize_ofList, String.ofList_toList]

theorem eq_nil_of_byteLength (h : byteLength cs = 0) : cs = [] := by
  cases cs with
  | nil => rfl
  | cons c cs =>
    have hc := c.utf8Size_pos
    rw [byteLength] at h
    omega

/-- Whether a byte of a text belongs to a token. -/
def Covers (t : Token) (offset : Nat) : Prop :=
  t.position ≤ offset ∧ offset < t.position + t.text.utf8ByteSize

namespace Splits

variable {p : Nat} {ts : List Token}

theorem exists_scans (h : Splits p cs ts) {t : Token} (ht : t ∈ ts) :
    ∃ c word, t.text = String.ofList (c :: word) ∧ isBlank c = false ∧ Scans c word t.kind word.length := by
  induction h with
  | nil => cases ht
  | blank _ _ ih => exact ih ht
  | token hc hs _ ih =>
    rcases List.mem_cons.mp ht with rfl | ht
    · have hs := scans_take hs
      rw [List.take_left] at hs
      exact ⟨_, _, rfl, hc, hs⟩
    · exact ih ht

theorem exists_append (h : Splits p cs ts) {t : Token} (ht : t ∈ ts) :
    ∃ before after, cs = before ++ t.text.toList ++ after ∧ t.position = p + byteLength before := by
  induction h with
  | nil => cases ht
  | @blank p c cs ts hc _ ih =>
    obtain ⟨before, after, hcs, hp⟩ := ih ht
    refine ⟨c :: before, after, ?_, ?_⟩
    · rw [hcs]
      rfl
    · rw [hp, byteLength, Nat.add_assoc]
  | @token p c word rest kind ts hc _ _ ih =>
    rcases List.mem_cons.mp ht with rfl | ht
    · exact ⟨[], rest, by simp, rfl⟩
    · obtain ⟨before, after, hcs, hp⟩ := ih ht
      refine ⟨c :: word ++ before, after, ?_, ?_⟩
      · rw [hcs]
        simp
      · rw [hp, byteLength_append, Nat.add_assoc]

theorem le_position (h : Splits p cs ts) {t : Token} (ht : t ∈ ts) : p ≤ t.position := by
  obtain ⟨before, _, _, hp⟩ := h.exists_append ht
  omega

theorem apart (h : Splits p cs ts) : ts.Pairwise fun t u => t.position + t.text.utf8ByteSize ≤ u.position := by
  induction h with
  | nil => exact .nil
  | blank _ _ ih => exact ih
  | token hc _ hrest ih =>
    refine .cons (fun u hu => ?_) ih
    rw [utf8ByteSize_ofList]
    exact hrest.le_position hu

theorem text_ne_empty (h : Splits p cs ts) {t : Token} (ht : t ∈ ts) : t.text ≠ "" := by
  obtain ⟨c, word, htext, -⟩ := h.exists_scans ht
  rw [htext]
  simp

/-- A character that belongs to no token is blank. -/
theorem isBlank_of_not_covers (h : Splits p cs ts) {before after : List Char} {d : Char}
    (hcs : cs = before ++ d :: after) (hu : ∀ t ∈ ts, ¬ t.Covers (p + byteLength before)) : isBlank d = true := by
  induction h generalizing before with
  | nil => simp at hcs
  | @blank p c cs ts hc _ ih =>
    cases before with
    | nil =>
      cases hcs
      exact hc
    | cons b before =>
      cases hcs
      refine ih rfl ?_
      rwa [byteLength, ← Nat.add_assoc] at hu
  | @token p c word rest kind ts hc _ _ ih =>
    have hfirst := hu _ List.mem_cons_self
    rw [Covers, utf8ByteSize_ofList] at hfirst
    dsimp only at hfirst
    -- The character cannot stand in the first token, so it stands behind it.
    obtain ⟨behind, rfl, hrest⟩ : ∃ behind, before = c :: word ++ behind ∧ rest = behind ++ d :: after := by
      rw [← List.cons_append] at hcs
      obtain h | ⟨inside, hword, hafter⟩ := List.append_eq_append_iff.mp hcs
      · exact h
      · rw [hword, byteLength_append] at hfirst
        have hnil : inside = [] := eq_nil_of_byteLength (by omega)
        subst hnil
        exact ⟨[], by simpa using hword.symm, hafter.symm⟩
    refine ih hrest fun t ht => ?_
    rw [Nat.add_assoc, ← byteLength_append]
    exact hu t (List.mem_cons_of_mem _ ht)

theorem eq_nil_iff (h : Splits p cs ts) : ts = [] ↔ allBlank cs = true := by
  induction h with
  | nil => simp [allBlank]
  | blank hc _ ih => simpa [allBlank, hc] using ih
  | token hc => simp [allBlank, hc]

theorem alone (h : Splits p cs ts) {t : Token} (ht : t ∈ ts) : read t.text = .ok [{ t with position := 0 }] := by
  obtain ⟨c, word, htext, hc, hs⟩ := h.exists_scans ht
  rw [← List.append_nil word] at hs
  have hone : Splits 0 (c :: (word ++ [])) [⟨t.kind, String.ofList (c :: word), 0⟩] := .token hc (by simpa using hs) .nil
  rw [read, htext, String.toList_ofList, splits_iff]
  rwa [List.append_nil] at hone

end Splits

/-- All that a list of tokens keeps of a text. -/
structure Lossless (text : String) (ts : List Token) : Prop where
  increasing : ts.Pairwise fun t u => t.position < u.position
  apart : ts.Pairwise fun t u => t.position + t.text.utf8ByteSize ≤ u.position
  /-- A token begins at the end of a character, and its text is what stands there. -/
  slice : ∀ t ∈ ts, t.text ≠ "" ∧
    ∃ before after, text = before ++ t.text ++ after ∧ t.position = before.utf8ByteSize
  blank : ∀ before d after, text = before ++ String.singleton d ++ after →
    (∀ t ∈ ts, ¬ t.Covers before.utf8ByteSize) → isBlank d = true
  empty : ts = [] ↔ allBlank text.toList = true
  alone : ∀ t ∈ ts, read t.text = .ok [{ t with position := 0 }]

/-- Reading a text loses nothing of it but blanks. -/
theorem lossless_read {text : String} {ts : List Token} (h : read text = .ok ts) : Lossless text ts := by
  have hs : Splits 0 text.toList ts := splits_iff.mp h
  have hne : ∀ t ∈ ts, 0 < t.text.utf8ByteSize := by
    intro t ht
    have hne := hs.text_ne_empty ht
    exact Nat.pos_of_ne_zero fun hz => hne (String.utf8ByteSize_eq_zero_iff.mp hz)
  refine ⟨?_, hs.apart, ?_, ?_, hs.eq_nil_iff, fun t ht => hs.alone ht⟩
  · refine hs.apart.imp_of_mem fun ht _ hle => ?_
    have hpos := hne _ ht
    omega
  · intro t ht
    obtain ⟨before, after, htext, hp⟩ := hs.exists_append ht
    refine ⟨hs.text_ne_empty ht, String.ofList before, String.ofList after, ?_, ?_⟩
    · rw [← String.toList_inj, htext]
      simp
    · rw [hp, utf8ByteSize_ofList, Nat.zero_add]
  · intro before d after htext hu
    have hcs : text.toList = before.toList ++ d :: after.toList := by simp [htext]
    refine hs.isBlank_of_not_covers hcs fun t ht => ?_
    rw [Nat.zero_add, byteLength_toList]
    exact hu t ht

theorem lossless_read_mixed : ∃ ts, read " naïve eq 'it''s'\t-INF)" = .ok ts ∧ ts.length = 5 ∧
    Lossless " naïve eq 'it''s'\t-INF)" ts := by
  have h : (read " naïve eq 'it''s'\t-INF)").toOption.any (fun ts => ts.length == 5) = true := by decide +kernel
  obtain ⟨ts, hts, hlen⟩ := exists_of_any h
  exact ⟨ts, hts, eq_of_beq hlen, lossless_read hts⟩

/-! ## Texts with blanks between them -/

theorem within_apart {ranges ranges' : List (Nat × Nat)}
    (h : ∀ r ∈ ranges, ∀ r' ∈ ranges', r.2 < r'.1 ∨ r'.2 < r.1) (hc : within ranges c = true) :
    within ranges' c = false := by
  rw [within, List.any_eq_true] at hc
  obtain ⟨r, hr, hc⟩ := hc
  simp only [Bool.and_eq_true, decide_eq_true_eq] at hc
  refine List.any_eq_false.mpr fun r' hr' => ?_
  have hapart := h r hr r' hr'
  simp only [Bool.and_eq_true, decide_eq_true_eq]
  omega

theorem blank_apart : ∀ r ∈ blankRanges, ∀ r' ∈ letterRanges ++ numeralRanges, r.2 < r'.1 ∨ r'.2 < r.1 := by
  decide +kernel

theorem not_isAlpha_of_isBlank (h : isBlank c = true) : c.isAlpha = false := by
  refine Bool.eq_false_iff.mpr fun ha => ?_
  rw [(begins_of_isAlpha ha).blank] at h
  cases h

theorem not_isWordChar_of_isBlank (h : isBlank c = true) : isWordChar c = false := by
  have htables : within (letterRanges ++ numeralRanges) c = false := within_apart blank_apart h
  rw [within, List.any_append, Bool.or_eq_false_iff] at htables
  have hletter : within letterRanges c = false := htables.1
  have hnumeral : within numeralRanges c = false := htables.2
  simp [isWordChar, isLetter, isNumeral, not_isAlpha_of_isBlank h, not_isDigit_of_isBlank h, hletter, hnumeral]

theorem break_of_isBlank (h : isBlank c = true) : Break c := by
  have hne : ∀ d, isBlank d = false → c ≠ d := by
    rintro d hd rfl
    rw [hd] at h
    cases h
  refine ⟨?_, ?_, hne '\'' (by decide)⟩
  · have halnum : c.isAlphanum = (c.isAlpha || c.isDigit) := rfl
    simp [Word.isWordTail, halnum, not_isAlpha_of_isBlank h, not_isDigit_of_isBlank h, hne '.' (by decide),
      hne ':' (by decide), hne '+' (by decide), hne '-' (by decide)]
  · simp [not_isWordChar_of_isBlank h, hne '_' (by decide)]

theorem Splits.blanks {p : Nat} {ts : List Token} : ∀ {gap : List Char}, (∀ d ∈ gap, isBlank d = true) →
    Splits (p + byteLength gap) cs ts → Splits p (gap ++ cs) ts
  | [], _, h => h
  | d :: gap, hgap, h => by
    obtain ⟨hd, hgap⟩ := List.forall_mem_cons.mp hgap
    rw [byteLength, ← Nat.add_assoc] at h
    exact .blank hd (Splits.blanks hgap h)

/-- Blanks keep the tokens in front of them and behind them apart, whatever these are. -/
theorem read_across_blanks {a b gap : String} {ts us : List Token} (ha : read a = .ok ts) (hb : read b = .ok us)
    (hne : gap ≠ "") (hgap : ∀ d ∈ gap.toList, isBlank d = true) :
    read (a ++ gap ++ b) = .ok (ts ++ us.map (shift (a ++ gap).utf8ByteSize)) := by
  have hs : Splits 0 a.toList ts := splits_iff.mp ha
  have hu := (splits_iff.mp hb).shift (byteLength a.toList + byteLength gap.toList)
  have hbreaks : Breaks (gap.toList ++ b.toList) := by
    cases htext : gap.toList with
    | nil => exact absurd (String.toList_eq_nil_iff.mp htext) hne
    | cons d more =>
      rw [htext] at hgap
      exact breaks_cons (break_of_isBlank (hgap d List.mem_cons_self)) _
  have hblanks : Splits (0 + byteLength a.toList) (gap.toList ++ b.toList)
      (us.map (shift (byteLength a.toList + byteLength gap.toList))) := by
    refine .blanks hgap ?_
    rwa [Nat.zero_add]
  have hall := hs.append hbreaks hblanks
  rw [read, splits_iff, String.utf8ByteSize_append, ← byteLength_toList, ← byteLength_toList]
  simpa using hall

/-- A minus sign is not the sign of a number behind an em space. -/
theorem read_across_blanks_minus : ∃ ts us, read "id sub -" = .ok ts ∧ read "5" = .ok us ∧
    read ("id sub -" ++ "\u2003" ++ "5") = .ok (ts ++ us.map (shift ("id sub -" ++ "\u2003").utf8ByteSize)) := by
  have ha : (read "id sub -").toOption.any (fun ts => ts.length == 3) = true := by decide +kernel
  have hb : (read "5").toOption.any (fun us => us.length == 1) = true := by decide +kernel
  obtain ⟨ts, hts, -⟩ := exists_of_any ha
  obtain ⟨us, hus, -⟩ := exists_of_any hb
  have hspace : isBlank '\u2003' = true := by decide
  have hgap : ∀ d ∈ "\u2003".toList, isBlank d = true := by simpa using hspace
  exact ⟨ts, us, hts, hus, read_across_blanks hts hus (by decide) hgap⟩

end FilterGuard.Token
