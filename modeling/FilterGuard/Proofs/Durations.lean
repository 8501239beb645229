import FilterGuard.Proofs.Integers

/-!
# Durations

A duration has a day count, a time of hours, minutes and seconds behind `T`, or both. The
reader takes these, and besides them a few texts that have no component where one has to
be: a sign in front of `P` alone, and a `T` with nothing behind it.
-/

namespace FilterGuard
open Text

namespace Calendar

/-! ## Parts -/

def IsNumber (cs : List Char) : Prop :=
  cs ≠ [] ∧ ∀ c ∈ cs, c.isDigit = true

instance (cs : List Char) : Decidable (IsNumber cs) :=
  decidable_of_iff (cs ≠ [] ∧ cs.all Char.isDigit = true)
    ⟨fun ⟨hn, hd⟩ => ⟨hn, List.all_eq_true.mp hd⟩, fun ⟨hn, hd⟩ => ⟨hn, List.all_eq_true.mpr hd⟩⟩

/-- A number with its unit, or nothing. -/
inductive Component (unit : Char) : List Char → Prop
  | missing : Component unit []
  | present {ds} (h : IsNumber ds) : Component unit (ds ++ [unit])

/-- A number of seconds, which may have a fraction, or nothing. -/
inductive Seconds : List Char → Prop
  | missing : Seconds []
  | whole {ds} (h : IsNumber ds) : Seconds (ds ++ ['S'])
  | fraction {ds fs} (h : IsNumber ds) (hf : IsNumber fs) : Seconds (ds ++ '.' :: (fs ++ ['S']))

/-- Hours, minutes and seconds, each of which may be missing. -/
inductive Time : List Char → Prop
  | mk {hours minutes seconds} (hh : Component 'H' hours) (hm : Component 'M' minutes) (hs : Seconds seconds) :
      Time (hours ++ (minutes ++ seconds))

def IsSign (cs : List Char) : Prop :=
  cs = [] ∨ cs = ['-']

/-- A duration with a component behind `P`, and behind `T` if there is one. -/
inductive IsProper : List Char → Prop
  | days {sign days} (hs : IsSign sign) (hd : Component 'D' days) (hne : days ≠ []) : IsProper (sign ++ 'P' :: days)
  | time {sign days time} (hs : IsSign sign) (hd : Component 'D' days) (ht : Time time) (hne : time ≠ []) :
      IsProper (sign ++ 'P' :: (days ++ 'T' :: time))

/-- A text like a duration, without the component that has to stand at its end. -/
inductive IsBare : List Char → Prop
  | sign : IsBare ['-', 'P']
  | time {sign days} (hs : IsSign sign) (hd : Component 'D' days) : IsBare (sign ++ 'P' :: (days ++ ['T']))

/-! ## Reading of the parts -/

variable {unit : Char} {cs part rest : List Char}

theorem IsNumber.afterDigits_append (h : IsNumber part) {d : Char} (hd : d.isDigit = false) (rest : List Char) :
    afterDigits (part ++ d :: rest) = d :: rest :=
  Text.afterDigits_append h.2 (by rintro _ ⟨⟩; exact hd)

theorem IsNumber.exists_digitRun (h : IsNumber part) {d : Char} (hd : d.isDigit = false) (rest : List Char) :
    ∃ c ds, digitRun (part ++ d :: rest) = c :: ds := by
  rw [digitRun_append h.2 (by rintro _ ⟨⟩; exact hd)]
  exact List.exists_cons_of_ne_nil h.1

theorem isNumber_digitRun (h : digitRun cs ≠ []) : IsNumber (digitRun cs) :=
  ⟨h, fun _ hc => List.mem_takeWhile_imp hc⟩

/-- Nothing is skipped where the digits have another unit, or none. -/
theorem skipComponent_self (h : (afterDigits cs).head? ≠ some unit) : skipComponent unit cs = cs := by
  unfold skipComponent
  split
  · next u rest _ hafter =>
    rw [hafter] at h
    exact if_neg fun hu => h (congrArg some hu)
  · rfl

theorem Component.skip_append (h : Component unit part) (hu : unit.isDigit = false)
    (hr : (afterDigits rest).head? ≠ some unit) : skipComponent unit (part ++ rest) = rest := by
  cases h with
  | missing => exact skipComponent_self hr
  | @present ds h =>
    rw [List.append_assoc, List.singleton_append]
    obtain ⟨c, cs, hrun⟩ := h.exists_digitRun hu rest
    rw [skipComponent, hrun, h.afterDigits_append hu]
    exact if_pos rfl

theorem exists_component (unit : Char) (cs : List Char) :
    ∃ part, Component unit part ∧ cs = part ++ skipComponent unit cs := by
  have hsplit := digitRun_append_afterDigits cs
  unfold skipComponent
  split
  · next u rest hrun hafter =>
    split
    · next hu =>
      refine ⟨digitRun cs ++ [unit], .present (isNumber_digitRun (by simp [hrun])), ?_⟩
      rw [List.append_assoc, List.singleton_append, ← hu, ← hafter, hsplit]
    · exact ⟨[], .missing, rfl⟩
  · exact ⟨[], .missing, rfl⟩

theorem Seconds.skip (h : Seconds cs) : skipSeconds cs = [] := by
  have hpoint : ('.' : Char).isDigit = false := by decide
  have hunit : ('S' : Char).isDigit = false := by decide
  cases h with
  | missing => rfl
  | whole h =>
    obtain ⟨c, cs, hrun⟩ := h.exists_digitRun hunit []
    rw [skipSeconds, hrun, h.afterDigits_append hunit]
    rfl
  | fraction h hf =>
    obtain ⟨c, cs, hrun⟩ := h.exists_digitRun hpoint _
    obtain ⟨d, ds, hfraction⟩ := hf.exists_digitRun hunit []
    rw [skipSeconds, hrun, h.afterDigits_append hpoint]
    simp only [hfraction, hf.afterDigits_append hunit]

theorem exists_seconds (cs : List Char) : ∃ part, Seconds part ∧ cs = part ++ skipSeconds cs := by
  have hsplit := digitRun_append_afterDigits cs
  unfold skipSeconds
  split
  · next rest hrun hafter =>
    refine ⟨digitRun cs ++ ['S'], .whole (isNumber_digitRun (by simp [hrun])), ?_⟩
    rw [List.append_assoc, List.singleton_append, ← hafter, hsplit]
  · next more hrun hafter =>
    have hmore := digitRun_append_afterDigits more
    split
    · next rest hfraction hback =>
      refine ⟨digitRun cs ++ '.' :: (digitRun more ++ ['S']),
        .fraction (isNumber_digitRun (by simp [hrun])) (isNumber_digitRun (by simp [hfraction])), ?_⟩
      rw [List.append_assoc, List.cons_append, List.append_assoc, List.singleton_append, ← hback, hmore, ← hafter,
        hsplit]
    · exact ⟨[], .missing, rfl⟩
  · exact ⟨[], .missing, rfl⟩

/-! ## Reading of a whole -/

theorem Component.head?_afterDigits (h : Component unit part) (hu : unit.isDigit = false) (rest : List Char) :
    (afterDigits (part ++ rest)).head? = some unit ∨ part = [] := by
  cases h with
  | missing => exact .inr rfl
  | present h =>
    rw [List.append_assoc, List.singleton_append, h.afterDigits_append hu]
    exact .inl rfl

theorem Seconds.head?_afterDigits (h : Seconds cs) : ∀ d ∈ (afterDigits cs).head?, d = 'S' ∨ d = '.' := by
  cases h with
  | missing => nofun
  | whole h =>
    rw [h.afterDigits_append (by decide)]
    rintro _ ⟨⟩
    exact .inl rfl
  | fraction h hf =>
    rw [h.afterDigits_append (by decide)]
    rintro _ ⟨⟩
    exact .inr rfl

theorem Time.skip (h : Time cs) : skipSeconds (skipComponent 'M' (skipComponent 'H' cs)) = [] := by
  obtain ⟨hh, hm, hs⟩ := h
  next hours minutes seconds =>
  have hseconds : ∀ u, u ≠ 'S' → u ≠ '.' → (afterDigits seconds).head? ≠ some u := by
    intro u hS hp heq
    exact (hs.head?_afterDigits u heq).elim hS hp
  have hminutes : (afterDigits (minutes ++ seconds)).head? ≠ some 'H' := by
    obtain heq | rfl := hm.head?_afterDigits (by decide) seconds
    · rw [heq]
      decide
    · exact hseconds 'H' (by decide) (by decide)
  rw [hh.skip_append (by decide) hminutes, hm.skip_append (by decide) (hseconds 'M' (by decide) (by decide)), hs.skip]

theorem exists_time (h : skipSeconds (skipComponent 'M' (skipComponent 'H' cs)) = []) : Time cs := by
  obtain ⟨hours, hh, hcs⟩ := exists_component 'H' cs
  obtain ⟨minutes, hm, hcs'⟩ := exists_component 'M' (skipComponent 'H' cs)
  obtain ⟨seconds, hs, hcs''⟩ := exists_seconds (skipComponent 'M' (skipComponent 'H' cs))
  rw [h, List.append_nil] at hcs''
  rw [hcs, hcs', hcs'']
  exact .mk hh hm hs

/-- Behind the days a time stands, or nothing. -/
theorem skipTime_eq_nil_iff : skipTime cs = [] ↔ cs = [] ∨ ∃ time, Time time ∧ cs = 'T' :: time := by
  unfold skipTime
  split
  · next rest =>
    refine ⟨fun h => .inr ⟨rest, exists_time h, rfl⟩, ?_⟩
    rintro (h | ⟨time, ht, h⟩)
    · cases h
    · cases h
      exact ht.skip
  · next hne =>
    refine ⟨.inl, ?_⟩
    rintro (h | ⟨time, -, h⟩)
    · exact h
    · exact absurd h (hne time)

theorem skipTime_days_iff : skipTime (skipComponent 'D' cs) = [] ↔
    ∃ days back, Component 'D' days ∧ cs = days ++ back ∧ (back = [] ∨ ∃ time, Time time ∧ back = 'T' :: time) := by
  constructor
  · intro h
    obtain ⟨days, hd, hcs⟩ := exists_component 'D' cs
    exact ⟨days, _, hd, hcs, skipTime_eq_nil_iff.mp h⟩
  · rintro ⟨days, back, hd, rfl, hback⟩
    have hhead : (afterDigits back).head? ≠ some 'D' := by
      obtain rfl | ⟨time, -, rfl⟩ := hback
      · decide
      · have hT : ¬ ('T' : Char).isDigit = true := by decide
        rw [afterDigits, List.dropWhile_cons_of_neg hT, List.head?_cons]
        decide
    rw [hd.skip_append (by decide) hhead]
    exact skipTime_eq_nil_iff.mpr hback

theorem isDuration_iff_sign : isDuration cs = true ↔
    ∃ sign rest, IsSign sign ∧ cs = sign ++ 'P' :: rest ∧ 1 < cs.length ∧ skipTime (skipComponent 'D' rest) = [] := by
  constructor
  · intro h
    unfold isDuration at h
    split at h <;> dsimp only at h <;> split at h
    · next rest =>
      rw [Bool.and_eq_true, decide_eq_true_eq, decide_eq_true_eq] at h
      exact ⟨['-'], rest, .inr rfl, rfl, h⟩
    · cases h
    · next rest _ =>
      rw [Bool.and_eq_true, decide_eq_true_eq, decide_eq_true_eq] at h
      exact ⟨[], rest, .inl rfl, rfl, h⟩
    · cases h
  · rintro ⟨sign, rest, rfl | rfl, rfl, hl, h⟩
    · exact Bool.and_eq_true_iff.mpr ⟨decide_eq_true hl, decide_eq_true h⟩
    · exact Bool.and_eq_true_iff.mpr ⟨decide_eq_true hl, decide_eq_true h⟩

/-- The reader asks for no component, but for more than one character. -/
theorem isDuration_iff_parts : isDuration cs = true ↔ ∃ sign days back, IsSign sign ∧ Component 'D' days ∧
    (back = [] ∨ ∃ time, Time time ∧ back = 'T' :: time) ∧ cs = sign ++ 'P' :: (days ++ back) ∧ 1 < cs.length := by
  rw [isDuration_iff_sign]
  constructor
  · rintro ⟨sign, rest, hs, rfl, hl, h⟩
    obtain ⟨days, back, hd, rfl, hback⟩ := skipTime_days_iff.mp h
    exact ⟨sign, days, back, hs, hd, hback, rfl, hl⟩
  · rintro ⟨sign, days, back, hs, hd, hback, rfl, hl⟩
    exact ⟨sign, _, hs, rfl, hl, skipTime_days_iff.mpr ⟨days, back, hd, rfl, hback⟩⟩

theorem IsProper.isDuration (h : IsProper cs) : isDuration cs = true := by
  cases h with
  | @days sign days hs hd hne =>
    have hpos := List.length_pos_of_ne_nil hne
    refine isDuration_iff_parts.mpr ⟨sign, days, [], hs, hd, .inl rfl, by simp, ?_⟩
    rw [List.length_append, List.length_cons]
    omega
  | @time sign days time hs hd ht =>
    refine isDuration_iff_parts.mpr ⟨sign, days, _, hs, hd, .inr ⟨time, ht, rfl⟩, rfl, ?_⟩
    simp only [List.length_append, List.length_cons]
    omega

theorem IsBare.isDuration (h : IsBare cs) : isDuration cs = true := by
  cases h with
  | sign => decide
  | @time sign days hs hd =>
    have ht : Time [] := .mk .missing .missing .missing
    refine isDuration_iff_parts.mpr ⟨sign, days, _, hs, hd, .inr ⟨[], ht, rfl⟩, rfl, ?_⟩
    simp only [List.length_append, List.length_cons]
    omega

/-- The reader takes the durations, and the texts that only lack their last component. -/
theorem isDuration_iff : isDuration cs = true ↔ IsProper cs ∨ IsBare cs := by
  refine ⟨fun h => ?_, fun h => h.elim IsProper.isDuration IsBare.isDuration⟩
  obtain ⟨sign, days, back, hs, hd, rfl | ⟨time, ht, rfl⟩, rfl, hl⟩ := isDuration_iff_parts.mp h
  · rw [List.append_nil] at hl ⊢
    by_cases hne : days = []
    · -- Only a sign makes the text longer than one character.
      rw [hne] at hl ⊢
      obtain rfl | rfl := hs
      · exact absurd hl (by decide)
      · exact .inr .sign
    · exact .inl (.days hs hd hne)
  · by_cases hne : time = []
    · rw [hne]
      exact .inr (.time hs hd)
    · exact .inl (.time hs hd ht hne)

/-! ## Last characters -/

theorem Component.getLast? (h : Component unit part) (hne : part ≠ []) : part.getLast? = some unit := by
  cases h with
  | missing => exact absurd rfl hne
  | present => exact List.getLast?_concat

theorem Seconds.getLast? (h : Seconds cs) (hne : cs ≠ []) : cs.getLast? = some 'S' := by
  cases h with
  | missing => exact absurd rfl hne
  | whole => exact List.getLast?_concat
  | @fraction ds fs _ _ =>
    have hsplit : ds ++ '.' :: (fs ++ ['S']) = (ds ++ '.' :: fs) ++ ['S'] := by simp
    rw [hsplit]
    exact List.getLast?_concat

theorem Time.getLast? (h : Time cs) (hne : cs ≠ []) : ∃ u ∈ ['H', 'M', 'S'], cs.getLast? = some u := by
  obtain ⟨hh, hm, hs⟩ := h
  next hours minutes seconds =>
  by_cases hseconds : seconds = []
  · rw [hseconds, List.append_nil] at hne ⊢
    by_cases hminutes : minutes = []
    · rw [hminutes, List.append_nil] at hne ⊢
      exact ⟨'H', by decide, hh.getLast? hne⟩
    · exact ⟨'M', by decide, by rw [List.getLast?_append_of_ne_nil _ hminutes, hm.getLast? hminutes]⟩
  · have hback : minutes ++ seconds ≠ [] := by simp [hseconds]
    refine ⟨'S', by decide, ?_⟩
    rw [List.getLast?_append_of_ne_nil _ hback, List.getLast?_append_of_ne_nil _ hseconds, hs.getLast? hseconds]

theorem IsProper.getLast? (h : IsProper cs) : ∃ u ∈ ['D', 'H', 'M', 'S'], cs.getLast? = some u := by
  cases h with
  | @days sign days hs hd hne =>
    refine ⟨'D', by decide, ?_⟩
    rw [List.getLast?_append_of_ne_nil _ (by simp), List.getLast?_cons_of_ne_nil hne, hd.getLast? hne]
  | @time sign days time hs hd ht hne =>
    obtain ⟨u, hu, hlast⟩ := ht.getLast? hne
    refine ⟨u, List.mem_cons_of_mem _ hu, ?_⟩
    have hsplit : sign ++ 'P' :: (days ++ 'T' :: time) = (sign ++ 'P' :: (days ++ ['T'])) ++ time := by simp
    rw [hsplit, List.getLast?_append_of_ne_nil _ hne, hlast]

/-- No text that lacks its last component is a duration after all. -/
theorem IsBare.not_isProper (h : IsBare cs) : ¬ IsProper cs := by
  intro hp
  obtain ⟨u, hu, hlast⟩ := hp.getLast?
  have hbare : cs.getLast? = some 'P' ∨ cs.getLast? = some 'T' := by
    cases h with
    | sign => exact .inl rfl
    | @time sign days =>
      have hsplit : sign ++ 'P' :: (days ++ ['T']) = (sign ++ 'P' :: days) ++ ['T'] := by simp
      rw [hsplit]
      exact .inr List.getLast?_concat
  rw [hlast] at hbare
  obtain h | h := hbare <;> cases h <;> exact absurd hu (by decide)

/-! ## Characters -/

variable {d : Char}

theorem Component.mem (h : Component unit part) (hm : d ∈ part) : d.isDigit = true ∨ d = unit := by
  cases h with
  | missing => cases hm
  | present h => exact (List.mem_append.mp hm).imp (h.2 d) List.mem_singleton.mp

theorem Seconds.mem (h : Seconds cs) (hm : d ∈ cs) : d.isDigit = true ∨ d ∈ ['S', '.'] := by
  cases h with
  | missing => cases hm
  | whole h =>
    refine (List.mem_append.mp hm).imp (h.2 d) fun hm => ?_
    simp [List.mem_singleton.mp hm]
  | fraction h hf =>
    simp only [List.mem_append, List.mem_cons, List.not_mem_nil, or_false] at hm
    obtain hm | rfl | hm | rfl := hm
    · exact .inl (h.2 d hm)
    · exact .inr (by decide)
    · exact .inl (hf.2 d hm)
    · exact .inr (by decide)

theorem Time.mem (h : Time cs) (hm : d ∈ cs) : d.isDigit = true ∨ d ∈ ['H', 'M', 'S', '.'] := by
  obtain ⟨hh, hmin, hs⟩ := h
  simp only [List.mem_append] at hm
  obtain hm | hm | hm := hm
  · exact (hh.mem hm).imp id fun hd => by simp [hd]
  · exact (hmin.mem hm).imp id fun hd => by simp [hd]
  · exact (hs.mem hm).imp id fun hd => List.mem_cons_of_mem _ (List.mem_cons_of_mem _ hd)

/-- A duration has digits, units, points and a sign in it, and nothing else. -/
theorem not_mem_of_isDuration (hd : d.isDigit = false) (hu : d ∉ ['-', 'P', 'D', 'T', 'H', 'M', 'S', '.'])
    (h : isDuration cs = true) : d ∉ cs := by
  obtain ⟨sign, days, back, hs, hdays, hback, rfl, -⟩ := isDuration_iff_parts.mp h
  simp only [List.mem_cons, List.not_mem_nil, or_false, not_or] at hu
  obtain ⟨hminus, hp, hday, ht, htime⟩ := hu
  have hdigit : ¬ d.isDigit = true := by simp [hd]
  have hsign : d ∉ sign := by
    obtain rfl | rfl := hs
    · exact List.not_mem_nil
    · simpa using hminus
  have hdays : d ∉ days := fun hm => (hdays.mem hm).elim hdigit hday
  have hback : d ∉ back := by
    obtain rfl | ⟨time, hti, rfl⟩ := hback
    · exact List.not_mem_nil
    · rw [List.mem_cons, not_or]
      refine ⟨ht, fun hm => (hti.mem hm).elim hdigit ?_⟩
      simpa using htime
  simp [hsign, hp, hdays, hback]

end Calendar

namespace Token
open Calendar

theorem isWord_duration {name : String} (h : sameName name "duration" = true) : IsWord name.toList := by
  have hd : IsIdentifier "duration" := by decide
  refine (hd.of_sameName h ⟨?_, ?_⟩).word
  · rintro rfl
    exact absurd h (by decide)
  · rintro rfl
    exact absurd h (by decide)

theorem read_named {name body : String} (hw : IsWord name.toList) (hb : '\'' ∉ body.toList) :
    read (name ++ "'" ++ body ++ "'") = (Word.named name body 0).map fun value =>
      [⟨.literal value, name ++ "'" ++ body ++ "'", 0⟩] := by
  have hlist : (name ++ "'" ++ body ++ "'").toList = name.toList ++ '\'' :: (body.toList ++ ['\'']) := by simp
  have hread := readFrom_named hw hb 0
  rwa [← hlist, String.ofList_toList] at hread

/-- A quoted text behind the name of durations is a duration if it has a component behind
`P` and behind `T`, and also if it lacks just the last of these. Anything else is an error. -/
theorem read_duration {name body : String} (hn : sameName name "duration" = true) (hb : '\'' ∉ body.toList) :
    (ReadsAs (name ++ "'" ++ body ++ "'") (.duration body) ↔ IsProper body.toList ∨ IsBare body.toList) ∧
    (IsBare body.toList → ¬ IsProper body.toList) ∧
    (¬ (IsProper body.toList ∨ IsBare body.toList) →
      read (name ++ "'" ++ body ++ "'") = .error (.invalidLiteral body .duration 0)) := by
  rw [ReadsAs, read_named (isWord_duration hn) hb, Word.named, if_pos hn, ← isDuration_iff]
  refine ⟨⟨fun h => ?_, fun hd => by rw [if_pos hd]; rfl⟩, IsBare.not_isProper, fun hd => by rw [if_neg hd]; rfl⟩
  by_contra hd
  rw [if_neg hd] at h
  cases h

/-- A day and half a second backwards, and a component without digits. -/
theorem read_duration_signed : ReadsAs "Duration'-P1DT0.5S'" (.duration "-P1DT0.5S") ∧
    read "duration'PD'" = .error (.invalidLiteral "PD" .duration 0) := by
  have hproper : IsProper "-P1DT0.5S".toList := by
    have hd : Component 'D' ['1', 'D'] := @Component.present 'D' ['1'] (by decide)
    have hs : Seconds ['0', '.', '5', 'S'] := @Seconds.fraction ['0'] ['5'] (by decide) (by decide)
    exact .time (.inr rfl) hd (.mk .missing .missing hs) (by decide)
  have hnot : ¬ (IsProper "PD".toList ∨ IsBare "PD".toList) := by
    rw [← isDuration_iff]
    decide
  exact ⟨(@read_duration "Duration" "-P1DT0.5S" (by decide) (by decide)).1.mpr (.inl hproper),
    (@read_duration "duration" "PD" (by decide) (by decide)).2.2 hnot⟩

/-- A sign, or a `T`, is enough for a text without any component. -/
theorem read_duration_bare : ReadsAs "duration'PT'" (.duration "PT") ∧ ¬ IsProper "PT".toList ∧
    ReadsAs "duration'-P'" (.duration "-P") ∧ ¬ IsProper "-P".toList := by
  have htime : IsBare "PT".toList := .time (.inl rfl) .missing
  exact ⟨by decide +kernel, htime.not_isProper, by decide +kernel, IsBare.sign.not_isProper⟩

end Token

end FilterGuard
