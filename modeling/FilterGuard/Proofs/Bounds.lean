import FilterGuard.Proofs.Notation

/-!
# Bounds of counts

Whether a text looks like a count is told by its digits and commas alone, while its
bounds are read with the blanks inside them. So what looks like a count is one of the
ways to write it, or has a bound that is too large or one with a blank between its digits.
-/

namespace FilterGuard
open Text

namespace Fragment

/-- What is wrong with a bound of digits and blanks: the digits up to the first blank make
too large a number, or else there is a blank. -/
inductive Faulty (bound : List Char) : BoundFault → Prop
  | tooLarge (h : UInt32.size ≤ decimalValue (digitRun bound)) : Faulty bound .tooLarge
  | notADigit (h : decimalValue (digitRun bound) < UInt32.size) (hb : ∃ c ∈ bound, isBlank c = true) :
      Faulty bound .notADigit

/-- What is wrong with the first bound of a count that is not the writing of a number. -/
inductive FaultyCount (count : List Char) (fault : BoundFault) : Prop
  | one {bound} (hc : fields ',' count = [bound]) (hb : Faulty (trim bound) fault)
  | least {least most} (hc : fields ',' count = [least, most]) (hl : Faulty (trim least) fault)
  | most {least most n} (hc : fields ',' count = [least, most]) (hl : WritesBound n least)
      (hm : Faulty (trim most) fault)

/-! ## One bound -/

section
variable {bound : List Char} (hb : (bound.filter fun c => !isBlank c).all Char.isDigit = true)
include hb

theorem isDigit_or_isBlank {c : Char} (hc : c ∈ trim bound) : c.isDigit = true ∨ isBlank c = true := by
  obtain ⟨front, behind, -, -, hbound⟩ := exists_trim bound
  have hm : c ∈ bound := by
    rw [hbound]
    simp [hc]
  cases h : isBlank c with
  | true => exact .inr rfl
  | false => exact .inl (List.all_eq_true.mp hb c (List.mem_filter.mpr ⟨hm, by simp [h]⟩))

/-- Only a blank ends the digits of a bound. -/
theorem exists_blank (h : afterDigits (trim bound) ≠ []) : ∃ c ∈ trim bound, isBlank c = true := by
  by_contra hnone
  refine h (List.dropWhile_eq_nil_iff.mpr fun c hc => ?_)
  exact (isDigit_or_isBlank hb hc).resolve_right fun hblank => hnone ⟨c, hc, hblank⟩

theorem writesBound_or_faulty : (∃ n, WritesBound n bound) ∨ ∃ fault, Faulty (trim bound) fault := by
  by_cases hfit : decimalValue (digitRun (trim bound)) < UInt32.size
  · by_cases hafter : afterDigits (trim bound) = []
    · have hrun := digitRun_append_afterDigits (trim bound)
      rw [hafter, List.append_nil] at hrun
      have hv := UInt32.toNat_ofNat_of_lt' hfit
      rw [hrun] at hv
      exact .inl ⟨_, trim bound, List.dropWhile_eq_nil_iff.mp hafter, hv.symm, exists_trim bound⟩
    · exact .inr ⟨_, .notADigit hfit (exists_blank hb hafter)⟩
  · exact .inr ⟨_, .tooLarge (Nat.le_of_not_lt hfit)⟩

theorem Faulty.readBound_eq {fault : BoundFault} (h : Faulty (trim bound) fault) :
    readBound (trim bound) = .error fault := by
  have hplus : (trim bound).head? ≠ some '+' := by
    intro h
    have h := isDigit_or_isBlank hb (List.mem_of_mem_head? h)
    revert h
    decide
  rw [Text.readBound_eq hplus]
  cases h with
  | tooLarge h => exact if_neg (Nat.not_lt.mpr h)
  | notADigit h hblank =>
    obtain ⟨c, hc, hblank⟩ := hblank
    rw [if_pos h, if_neg]
    intro hafter
    have hd := List.dropWhile_eq_nil_iff.mp hafter c hc
    rw [not_isDigit_of_isBlank hblank] at hd
    cases hd

end

/-! ## Counts -/

variable {count : List Char}

theorem bounds_of_looksLikeCount (h : looksLikeCount count = true) :
    ((∃ bound, fields ',' count = [bound]) ∨ ∃ least most, fields ',' count = [least, most]) ∧
      ∀ bound ∈ fields ',' count, (bound.filter fun c => !isBlank c).all Char.isDigit = true := by
  rw [looksLikeCount, fields_filter (by decide)] at h
  cases hf : fields ',' count with
  | nil => exact absurd hf (fields_ne_nil ',' count)
  | cons least more =>
    rw [hf] at h
    cases more with
    | nil => exact ⟨.inl ⟨least, rfl⟩, List.forall_mem_singleton.mpr h⟩
    | cons most behind =>
      cases behind with
      | nil =>
        obtain ⟨hl, hm⟩ := Bool.and_eq_true_iff.mp h
        exact ⟨.inr ⟨least, most, rfl⟩, List.forall_mem_cons.mpr ⟨hl, List.forall_mem_singleton.mpr hm⟩⟩
      | cons => cases h

/-- What looks like a count is one, unless one of its bounds is faulty. -/
theorem writesCount_or_faulty (h : looksLikeCount count = true) :
    (∃ c, WritesCount c count) ∨ ∃ fault, FaultyCount count fault := by
  obtain ⟨hshape, hd⟩ := bounds_of_looksLikeCount h
  have hjoin := joinFields_fields ',' count
  obtain ⟨bound, hc⟩ | ⟨least, most, hc⟩ := hshape
  · rw [hc] at hd hjoin
    obtain ⟨n, hn⟩ | ⟨fault, hf⟩ := writesBound_or_faulty (hd bound (by simp))
    · rw [← hjoin]
      exact .inl ⟨.exactly n, .one rfl hn⟩
    · exact .inr ⟨fault, .one hc hf⟩
  · rw [hc] at hd hjoin
    obtain ⟨m, hl⟩ | ⟨fault, hf⟩ := writesBound_or_faulty (hd least (by simp))
    · obtain ⟨n, hm⟩ | ⟨fault, hf⟩ := writesBound_or_faulty (hd most (by simp))
      · rw [← hjoin]
        exact .inl ⟨⟨m, n⟩, .both hl hm⟩
      · exact .inr ⟨fault, .most hc hl hf⟩
    · exact .inr ⟨fault, .least hc hf⟩

theorem FaultyCount.eq_tooLarge {fault : BoundFault} (h : FaultyCount count fault)
    (hclear : ∀ bound ∈ fields ',' count, ∀ c ∈ trim bound, isBlank c = false) : fault = .tooLarge := by
  have hb : ∃ bound ∈ fields ',' count, Faulty (trim bound) fault := by
    cases h with
    | one hc hb => exact ⟨_, by simp [hc], hb⟩
    | least hc hl => exact ⟨_, by simp [hc], hl⟩
    | most hc _ hm => exact ⟨_, by simp [hc], hm⟩
  obtain ⟨bound, hm, hb⟩ := hb
  cases hb with
  | tooLarge => rfl
  | notADigit _ hblank =>
    obtain ⟨c, hc, hblank⟩ := hblank
    rw [hclear bound hm c hc] at hblank
    cases hblank

theorem FaultyCount.readCount_eq {fault : BoundFault} (h : FaultyCount count fault) (hl : looksLikeCount count = true)
    (fragment : List Char) :
    readCount fragment count = .error (.invalidCount (String.ofList fragment) (String.ofList count) fault) := by
  obtain ⟨-, hd⟩ := bounds_of_looksLikeCount hl
  cases h with
  | one hc hb =>
    rw [readCount, hc]
    simp only [hb.readBound_eq (hd _ (by simp [hc]))]
    rfl
  | least hc hl =>
    rw [readCount, hc]
    simp only [hl.readBound_eq (hd _ (by simp [hc]))]
    rfl
  | most hc hl hm =>
    rw [readCount, hc]
    simp only [hl.readBound_eq, hm.readBound_eq (hd _ (by simp [hc]))]
    rfl

section
variable (hl : looksLikeCount count = true) (ht : trim count = count) (fragment : List Char)
include hl ht

theorem readCount_ok_iff {c : Count} : readCount fragment count = .ok c ↔ WritesCount c count := by
  have hok : ∀ {c}, WritesCount c count → readCount fragment count = .ok c := fun h => by
    have hread := h.readCount_eq fragment
    rwa [ht] at hread
  refine ⟨fun h => ?_, hok⟩
  obtain ⟨c', hw⟩ | ⟨fault, hf⟩ := writesCount_or_faulty hl
  · rw [hok hw] at h
    cases h
    exact hw
  · rw [hf.readCount_eq hl] at h
    cases h

theorem readCount_error_iff {e : FragmentError} : readCount fragment count = .error e ↔
    ∃ fault, FaultyCount count fault ∧ e = .invalidCount (String.ofList fragment) (String.ofList count) fault := by
  constructor
  · intro h
    obtain ⟨c, hw⟩ | ⟨fault, hf⟩ := writesCount_or_faulty hl
    · rw [(readCount_ok_iff hl ht fragment).mpr hw] at h
      cases h
    · rw [hf.readCount_eq hl] at h
      cases h
      exact ⟨fault, hf, rfl⟩
  · rintro ⟨fault, hf, rfl⟩
    exact hf.readCount_eq hl fragment

end

/-- A count behind a name is read as the numbers that it writes. It fails on its first
faulty bound only, and without blanks inside the bounds only on too large a number. -/
theorem readCount_of_looksLikeCount {text name : List Char}
    (hp : (fields ':' (trim text)).map trim = [name, count]) (hl : looksLikeCount count = true) :
    parts (trim text) = (none, name, some count) ∧
      (∀ c, readCount (trim text) count = .ok c ↔ WritesCount c count) ∧
      (∀ e, readCount (trim text) count = .error e ↔ ∃ fault, FaultyCount count fault ∧
        e = .invalidCount (String.ofList (trim text)) (String.ofList count) fault) ∧
      ((∀ bound ∈ fields ',' count, ∀ c ∈ trim bound, isBlank c = false) → ∀ e,
        readCount (trim text) count = .error e →
          e = .invalidCount (String.ofList (trim text)) (String.ofList count) .tooLarge) := by
  have ht : trim count = count := by
    obtain ⟨piece, -, rfl⟩ := List.mem_map.mp (hp ▸ List.mem_cons_of_mem name List.mem_cons_self)
    exact trim_trim piece
  refine ⟨?_, fun c => readCount_ok_iff hl ht _, fun e => readCount_error_iff hl ht _, fun hclear e he => ?_⟩
  · rw [parts_two hp, if_pos hl]
  · obtain ⟨fault, hf, rfl⟩ := (readCount_error_iff hl ht _).mp he
    rw [hf.eq_tooLarge hclear]

theorem readCount_of_looksLikeCount_spaced :
    readCount "eq: 1 , 2".toList "1 , 2".toList = .ok ⟨1, 2⟩ ∧
      readCount "eq:1,4294967296".toList "1,4294967296".toList =
        .error (.invalidCount "eq:1,4294967296" "1,4294967296" .tooLarge) := by
  have hpad : ∀ cs : List Char, Padded cs cs := fun cs => ⟨[], [], rfl, rfl, by simp⟩
  constructor
  · have h := @readCount_of_looksLikeCount "1 , 2".toList "eq: 1 , 2".toList "eq".toList (by decide) (by decide)
    have hone : WritesBound 1 ['1', ' '] := ⟨['1'], by simp, rfl, [], [' '], rfl, rfl, rfl⟩
    have htwo : WritesBound 2 [' ', '2'] := ⟨['2'], by simp, rfl, [' '], [], rfl, rfl, rfl⟩
    have hboth : WritesCount ⟨1, 2⟩ (joinFields ',' [['1', ' '], [' ', '2']]) := .both hone htwo
    exact (h.2.1 ⟨1, 2⟩).mpr hboth
  · have h := @readCount_of_looksLikeCount "1,4294967296".toList "eq:1,4294967296".toList "eq".toList (by decide)
      (by decide)
    have hone : WritesBound 1 ['1'] := ⟨['1'], by simp, rfl, hpad _⟩
    have hc : fields ',' "1,4294967296".toList = [['1'], "4294967296".toList] := by decide
    exact (h.2.2.1 _).mpr ⟨.tooLarge, .most hc hone (.tooLarge (by decide)), rfl⟩

/-- Without its blanks this count would be 12. -/
theorem readCount_parted :
    looksLikeCount "1 2".toList = true ∧ parts "eq:1 2".toList = (none, "eq".toList, some "1 2".toList) ∧
      readCount "eq:1 2".toList "1 2".toList = .error (.invalidCount "eq:1 2" "1 2" .notADigit) ∧
      read "eq:1 2".toList = .error (.invalidCount "eq:1 2" "1 2" .notADigit) :=
  ⟨by decide, by decide, rfl, rfl⟩

end Fragment

end FilterGuard
