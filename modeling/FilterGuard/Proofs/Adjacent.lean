import FilterGuard.Proofs.Scanning

/-!
# Texts side by side

A token ends in front of a character that cannot belong to it. So what is read from a
text is read from it again where such a character and anything else stand behind it,
and its tokens are followed by those of the rest. Where a text stands changes the
positions of its tokens, not their kinds.
-/

namespace FilterGuard.Token
open Text

/-- A character that belongs to no token that begins before it. -/
structure Break (d : Char) : Prop where
  literal : Word.isWordTail d = false
  name : (isWordChar d || d = '_') = false
  quote : d ≠ '\''

/-- Whether a text can stand behind another without going on with its last token. -/
def Breaks (behind : List Char) : Prop :=
  ∀ d ∈ behind.head?, Break d

theorem breaks_cons {d : Char} (hd : Break d) (cs : List Char) : Breaks (d :: cs) := by
  rintro _ ⟨⟩
  exact hd

theorem break_space : Break ' ' := ⟨by decide, by decide, by decide⟩

theorem break_openParen : Break '(' := ⟨by decide, by decide, by decide⟩

theorem break_closeParen : Break ')' := ⟨by decide, by decide, by decide⟩

theorem break_comma : Break ',' := ⟨by decide, by decide, by decide⟩

theorem break_slash : Break '/' := ⟨by decide, by decide, by decide⟩

theorem Break.not_isDigit {d : Char} (h : Break d) : d.isDigit = false := by
  refine Bool.eq_false_iff.mpr fun hd => ?_
  have hl := h.literal
  rw [Word.isWordTail, Char.isAlphanum, hd, Bool.or_true] at hl
  cases hl

theorem isAlphanum_of_isHex {c : Char} (h : Word.isHex c = true) : c.isAlphanum = true := by
  rw [Word.isHex, Bool.or_eq_true, Bool.or_eq_true, Bool.and_eq_true, Bool.and_eq_true] at h
  have hkinds : c.isAlphanum = (c.isUpper || c.isLower || c.isDigit) := rfl
  rw [hkinds, Bool.or_eq_true, Bool.or_eq_true]
  obtain (h | ⟨hl, hu⟩) | ⟨hl, hu⟩ := h
  · exact .inr h
  · have hu : c.val ≤ 'f'.val := of_decide_eq_true hu
    have hlower : c.isLower = true := Bool.and_eq_true_iff.mpr ⟨hl, decide_eq_true (UInt32.le_trans hu (by decide))⟩
    exact .inl (.inr hlower)
  · have hu : c.val ≤ 'F'.val := of_decide_eq_true hu
    have hupper : c.isUpper = true := decide_eq_true ⟨of_decide_eq_true hl, UInt32.le_trans hu (by decide)⟩
    exact .inl (.inl hupper)

theorem Break.not_isHex {d : Char} (h : Break d) : Word.isHex d = false := by
  refine Bool.eq_false_iff.mpr fun hd => ?_
  have hl := h.literal
  rw [Word.isWordTail, isAlphanum_of_isHex hd] at hl
  cases hl

theorem not_isLetter {d : Char} (hn : (isWordChar d || d = '_') = false) : (isLetter d || d = '_') = false := by
  rw [isWordChar, Bool.or_assoc] at hn
  obtain ⟨hl, hn⟩ := Bool.or_eq_false_iff.mp hn
  rw [hl, (Bool.or_eq_false_iff.mp hn).2]
  rfl

theorem Break.ne {d : Char} (h : Break d) {c : Char} (hc : Word.isWordTail c = true) : d ≠ c := by
  rintro rfl
  rw [h.literal] at hc
  cases hc

theorem byteLength_append : ∀ cs cs' : List Char, byteLength (cs ++ cs') = byteLength cs + byteLength cs'
  | [], cs' => by simp [byteLength]
  | c :: cs, cs' => by simp [byteLength, byteLength_append cs, Nat.add_assoc]

/-! ## Scanners -/

variable {cs behind : List Char} (hb : Breaks behind)

theorem takeWhile_behind {p : Char → Bool} (hp : ∀ d ∈ behind.head?, p d = false) : ∀ cs : List Char,
    (cs ++ behind).takeWhile p = cs.takeWhile p
  | [] => by
    cases behind with
    | nil => rfl
    | cons d more => simp [hp d rfl]
  | c :: cs => by
    rw [List.cons_append, List.takeWhile_cons, List.takeWhile_cons, takeWhile_behind hp cs]

theorem any_head_behind {p : Char → Bool} (hp : ∀ d ∈ behind.head?, p d = false) (cs : List Char) :
    (cs ++ behind).head?.any p = cs.head?.any p := by
  cases cs with
  | nil =>
    cases behind with
    | nil => rfl
    | cons d more => exact hp d rfl
  | cons => rfl

theorem take_behind : ∀ {word : List Char} (cs : List Char), (∀ d ∈ behind.head?, d ∉ word) →
    ((cs ++ behind).take word.length = word ↔ cs.take word.length = word)
  | [], _, _ => by simp
  | w :: word, [], hw => by
    cases behind with
    | nil => rfl
    | cons d more =>
      have hd : d ≠ w := fun h => hw d rfl (by simp [h])
      simp [hd]
  | w :: word, c :: cs, hw => by
    have ih := take_behind cs fun d hd h => hw d hd (List.mem_cons_of_mem w h)
    simp [ih]

/-- Whether a text can stand behind a name without going on with it. -/
def EndsName (behind : List Char) : Prop :=
  ∀ d ∈ behind.head?, (isWordChar d || d = '_') = false ∧ d ≠ '.'

theorem Breaks.endsName (hb : Breaks behind) : EndsName behind :=
  fun d hd => ⟨(hb d hd).name, (hb d hd).ne (by decide)⟩

theorem nameTail_behind (hb : EndsName behind) : ∀ cs : List Char, nameTail (cs ++ behind) = nameTail cs
  | [] => by
    cases behind with
    | nil => rfl
    | cons d more => simp [nameTail, hb d rfl]
  | c :: cs => by
    rw [List.cons_append, nameTail, nameTail, nameTail_behind hb cs,
      any_head_behind (fun d hd => not_isLetter (hb d hd).1) cs]

theorem prefix_nameTail : ∀ cs : List Char, nameTail cs <+: cs
  | [] => List.prefix_refl _
  | c :: cs => by
    have ih := prefix_nameTail cs
    rw [nameTail]
    by_cases hw : (isWordChar c || c = '_') = true
    · rw [if_pos hw]
      exact List.cons_prefix_cons.mpr ⟨rfl, ih⟩
    · rw [if_neg hw]
      split
      · exact List.cons_prefix_cons.mpr ⟨rfl, ih⟩
      · exact List.nil_prefix

theorem length_afterGroups {groups : List Nat} {rest : List Char} (h : Word.afterGroups groups cs = some rest) :
    groups.foldr (· + ·) 0 + (groups.length - 1) + rest.length = cs.length := by
  fun_induction Word.afterGroups groups cs with
  | case1 cs =>
    cases h
    simp
  | case2 n cs hn =>
    cases h
    have hn := hn.1
    rw [List.length_take] at hn
    simp
    omega
  | case3 n cs hn m groups rest' hdrop ih =>
    have ih := ih h
    have hn := hn.1
    have hlen := congrArg List.length hdrop
    rw [List.length_take] at hn
    rw [List.length_drop, List.length_cons] at hlen
    simp only [List.foldr_cons, List.length_cons] at ih ⊢
    omega
  | case4 => cases h
  | case5 => cases h

theorem length_of_startsWithGuid (h : startsWithGuid cs = true) : Word.guidLength ≤ cs.length := by
  rw [startsWithGuid] at h
  cases hg : Word.afterGuid cs with
  | none =>
    rw [hg] at h
    cases h
  | some rest =>
    rw [← length_afterGroups hg]
    exact Nat.le_add_right _ _

include hb

theorem read_behind {value : List Char} {n : Nat} (h : Quoted.read cs = some (value, n)) :
    Quoted.read (cs ++ behind) = some (value, n) ∧ n ≤ cs.length := by
  fun_induction Quoted.read cs generalizing value n with
  | case1 => cases h
  | case2 cs ih =>
    obtain ⟨⟨value', n'⟩, hr, hv⟩ := Option.map_eq_some_iff.mp h
    cases hv
    obtain ⟨hr', hn⟩ := ih hr
    exact ⟨by simp [Quoted.read, hr'], Nat.succ_le_succ (Nat.succ_le_succ hn)⟩
  | case3 cs hq =>
    cases h
    refine ⟨?_, Nat.succ_le_succ (Nat.zero_le _)⟩
    -- A quote behind this one would make it part of the text.
    have hnext : ∀ rest, cs ++ behind ≠ '\'' :: rest := by
      cases cs with
      | nil =>
        rintro rest rfl
        exact (hb _ rfl).quote rfl
      | cons c cs =>
        rintro rest heq
        cases heq
        exact hq cs rfl
    rw [List.cons_append, Quoted.read]
    exact hnext
  | case4 c cs hdouble hc ih =>
    obtain ⟨⟨value', n'⟩, hr, hv⟩ := Option.map_eq_some_iff.mp h
    cases hv
    obtain ⟨hr', hn⟩ := ih hr
    have hc : c ≠ '\'' := fun h => hc h
    exact ⟨by simp [Quoted.read, hc, hr'], Nat.succ_le_succ hn⟩

theorem afterGroups_behind (groups : List Nat) : ∀ cs : List Char,
    Word.afterGroups groups (cs ++ behind) = (Word.afterGroups groups cs).map (· ++ behind) := by
  induction groups with
  | nil => exact fun _ => rfl
  | cons n groups ih =>
    intro cs
    rw [Word.afterGroups.eq_def, Word.afterGroups.eq_def _ cs]
    dsimp only
    by_cases hn : n ≤ cs.length
    · rw [List.take_append_of_le_length hn, List.drop_append_of_le_length hn]
      by_cases hc : (cs.take n).length = n ∧ (cs.take n).all Word.isHex = true
      · rw [if_pos hc, if_pos hc]
        cases groups with
        | nil => rfl
        | cons m groups =>
          cases cs.drop n with
          | nil =>
            cases behind with
            | nil => rfl
            | cons d more => simp [(hb d rfl).ne (show Word.isWordTail '-' = true by decide)]
          | cons c rest =>
            by_cases hc : c = '-'
            · subst hc
              exact ih rest
            · simp [hc]
      · rw [if_neg hc, if_neg hc]
        rfl
    · -- A group that takes more than the text would have to take what breaks it.
      have hlong : ¬ (((cs ++ behind).take n).length = n ∧ ((cs ++ behind).take n).all Word.isHex = true) := by
        rintro ⟨hlen, hall⟩
        cases behind with
        | nil =>
          simp at hlen
          omega
        | cons d more =>
          obtain ⟨m, rfl⟩ : ∃ m, n = cs.length + 1 + m := ⟨n - cs.length - 1, by omega⟩
          rw [Nat.add_assoc, List.take_length_add_append, Nat.add_comm 1, List.take_succ_cons] at hall
          simp [(hb d rfl).not_isHex] at hall
      have hshort : ¬ (cs.take n).length = n := by
        rw [List.length_take]
        omega
      rw [if_neg hlong, if_neg fun h => hshort h.1]
      rfl

theorem startsWithGuid_behind (cs : List Char) : startsWithGuid (cs ++ behind) = startsWithGuid cs := by
  have hw : ∀ d ∈ behind.head?, isWordChar d = false :=
    fun d hd => (Bool.or_eq_false_iff.mp (hb d hd).name).1
  rw [startsWithGuid, startsWithGuid, Word.afterGuid, Word.afterGuid, afterGroups_behind hb]
  cases Word.afterGroups Word.guidGroups cs with
  | none => rfl
  | some rest => exact congrArg not (any_head_behind hw rest)

theorem scans_behind {c : Char} {kind : TokenKind} {n : Nat} (h : Scans c cs kind n) :
    Scans c (cs ++ behind) kind n ∧ n ≤ cs.length := by
  have hdigit := any_head_behind (p := Char.isDigit) (fun d hd => (hb d hd).not_isDigit) cs
  have hbehind : ∀ d ∈ behind.head?, d ∉ ['I', 'N', 'F'] := by
    intro d hd hm
    have hletters : ['I', 'N', 'F'].all Word.isWordTail = true := by decide
    exact (hb d hd).ne (List.all_eq_true.mp hletters d hm) rfl
  have hinf := take_behind cs hbehind
  have hguid := startsWithGuid_behind hb (c :: cs)
  have htail := nameTail_behind hb.endsName cs
  have hle := (prefix_nameTail cs).length_le
  cases h with
  | sign hc => exact ⟨.sign hc, Nat.zero_le _⟩
  | string hc hq =>
    obtain ⟨hq', hn⟩ := read_behind hb hq
    exact ⟨.string hc hq', hn⟩
  | infinity hc hi =>
    have hn : min 3 cs.length = 3 := by simpa using congrArg List.length hi
    exact ⟨.infinity hc (hinf.mpr hi), by omega⟩
  | minus hc hi hd => exact ⟨.minus hc (fun h => hi (hinf.mp h)) (hdigit.trans hd), Nat.zero_le _⟩
  | word hc hw =>
    refine ⟨?_, (List.takeWhile_prefix _).length_le⟩
    rw [← takeWhile_behind (fun d hd => (hb d hd).literal) cs] at hw ⊢
    rw [← hdigit] at hc
    exact .word hc hw
  | guid hc hg =>
    have hn := length_of_startsWithGuid hg
    refine ⟨?_, Nat.le_of_succ_le_succ hn⟩
    rw [← List.take_append_of_le_length hn]
    exact .guid hc (hguid.trans hg)
  | @named body _ _ _ hc hg hd hq hn =>
    obtain ⟨hq', hm⟩ := read_behind hb hq
    have hlen := congrArg List.length hd
    rw [List.length_drop, List.length_cons] at hlen
    refine ⟨?_, by omega⟩
    have hd' : (cs ++ behind).drop (nameTail cs).length = '\'' :: (body ++ behind) := by
      rw [List.drop_append_of_le_length hle, hd, List.cons_append]
    rw [← htail] at hd' hn ⊢
    exact .named hc (hguid.trans hg) hd' hq' hn
  | name hc hg hd =>
    refine ⟨?_, hle⟩
    have hd' : ((cs ++ behind).drop (nameTail cs).length).head? ≠ some '\'' := by
      rw [List.drop_append_of_le_length hle]
      cases hrest : cs.drop (nameTail cs).length with
      | nil =>
        intro hq
        exact (hb '\'' hq).quote rfl
      | cons q rest => rwa [hrest] at hd
    rw [← htail] at hd' ⊢
    exact .name hc (hguid.trans hg) hd'

omit hb

theorem length_of_scans {c : Char} {kind : TokenKind} {n : Nat} (h : Scans c cs kind n) : n ≤ cs.length := by
  have hnil : Breaks [] := nofun
  exact (scans_behind hnil h).2

/-! ## Blanks and tokens -/

theorem readFrom_skip : ∀ (cs : List Char) (p : Nat),
    readFrom cs.length p (cs ++ behind) = readFrom 0 (p + byteLength cs) behind
  | [], _ => rfl
  | c :: cs, p => by
    rw [List.cons_append, List.length_cons, readFrom, readFrom_skip cs, byteLength, Nat.add_assoc]

/-- How a text that stands at a position is made of blanks and tokens. -/
inductive Splits : Nat → List Char → List Token → Prop
  | nil {p : Nat} : Splits p [] []
  | blank {p : Nat} {c : Char} {cs : List Char} {ts : List Token} (hc : isBlank c = true)
      (h : Splits (p + c.utf8Size) cs ts) : Splits p (c :: cs) ts
  | token {p : Nat} {c : Char} {word rest : List Char} {kind : TokenKind} {ts : List Token} (hc : isBlank c = false)
      (hs : Scans c (word ++ rest) kind word.length) (h : Splits (p + byteLength (c :: word)) rest ts) :
      Splits p (c :: (word ++ rest)) (⟨kind, String.ofList (c :: word), p⟩ :: ts)

-- Along the characters, since what follows a token is found behind those to skip.
theorem splits_of_readFrom : ∀ {cs : List Char} {skip p : Nat} {ts : List Token}, readFrom skip p cs = .ok ts →
    skip ≤ cs.length → Splits (p + byteLength (cs.take skip)) (cs.drop skip) ts
  | [], 0, _, _, h, _ => by
    cases h
    exact .nil
  | c :: cs, skip + 1, p, ts, h, hs => by
    rw [readFrom] at h
    have ih := splits_of_readFrom h (Nat.le_of_succ_le_succ hs)
    rwa [Nat.add_assoc] at ih
  | c :: cs, 0, p, ts, h, _ => by
    rw [readFrom] at h
    by_cases hc : isBlank c = true
    · rw [if_pos hc] at h
      exact .blank hc (splits_of_readFrom h (Nat.zero_le _))
    · rw [if_neg hc] at h
      obtain ⟨⟨kind, n⟩, hs, h⟩ := bind_ok h
      obtain ⟨rest, hrest, h⟩ := bind_ok h
      cases h
      have hs := scan_eq_ok_iff.mp hs
      have hn := length_of_scans hs
      have ih := splits_of_readFrom hrest hn
      rw [Nat.add_assoc] at ih
      have hword : (cs.take n).length = n := by simp [hn]
      have hsplit : c :: cs = c :: (cs.take n ++ cs.drop n) := by simp
      rw [List.take_zero, List.drop_zero, byteLength, Nat.add_zero, hsplit]
      refine .token (Bool.eq_false_iff.mpr hc) ?_ ih
      rwa [List.take_append_drop, hword]

theorem splits_iff {p : Nat} {ts : List Token} : readFrom 0 p cs = .ok ts ↔ Splits p cs ts := by
  constructor
  · intro h
    exact splits_of_readFrom h (Nat.zero_le _)
  · intro h
    induction h with
    | nil => rfl
    | blank hc _ ih => rw [readFrom, if_pos hc, ih]
    | token hc hs _ ih =>
      rw [byteLength, ← Nat.add_assoc, ← readFrom_skip] at ih
      rw [readFrom, if_neg (Bool.eq_false_iff.mp hc), ok_bind (scan_eq_ok_iff.mpr hs)]
      dsimp only
      rw [ok_bind ih, List.take_left]
      rfl

/-- A text that is one token. -/
theorem splits_one {p : Nat} {c : Char} {kind : TokenKind} (hc : isBlank c = false)
    (hs : Scans c cs kind cs.length) : Splits p (c :: cs) [⟨kind, String.ofList (c :: cs), p⟩] := by
  have h : Splits p (c :: (cs ++ [])) [⟨kind, String.ofList (c :: cs), p⟩] :=
    .token hc (by rwa [List.append_nil]) .nil
  rwa [List.append_nil] at h

/-- A text is one token if the scanner takes all of it, and fails as the scanner does. -/
theorem readFrom_one {p : Nat} {c : Char} {x : Except ExprError TokenKind} (hc : isBlank c = false)
    (hs : scan p c cs = x.map fun kind => (kind, cs.length)) :
    readFrom 0 p (c :: cs) = x.map fun kind => [⟨kind, String.ofList (c :: cs), p⟩] := by
  cases x with
  | error e =>
    rw [readFrom, hc, if_neg Bool.false_ne_true, hs]
    rfl
  | ok kind => exact splits_iff.mpr (splits_one hc (scan_eq_ok_iff.mp hs))

theorem Splits.append {p : Nat} {ts ts' : List Token} (h : Splits p cs ts) (hb : Breaks behind)
    (h' : Splits (p + byteLength cs) behind ts') : Splits p (cs ++ behind) (ts ++ ts') := by
  induction h with
  | nil => exact h'
  | blank hc _ ih =>
    rw [byteLength, ← Nat.add_assoc] at h'
    exact .blank hc (ih h')
  | @token p c word rest kind ts hc hs _ ih =>
    have hs' := (scans_behind hb hs).1
    rw [List.append_assoc] at hs'
    rw [List.cons_append, List.cons_append, List.append_assoc]
    refine .token hc hs' (ih ?_)
    rwa [← List.cons_append, byteLength_append, ← Nat.add_assoc] at h'

/-- A token further right in a text. -/
def shift (d : Nat) (t : Token) : Token :=
  { t with position := d + t.position }

theorem Splits.shift {p : Nat} {ts : List Token} (h : Splits p cs ts) (d : Nat) :
    Splits (d + p) cs (ts.map (shift d)) := by
  induction h with
  | nil => exact .nil
  | blank hc _ ih =>
    rw [← Nat.add_assoc] at ih
    exact .blank hc ih
  | token hc hs _ ih =>
    rw [← Nat.add_assoc] at ih
    exact .token hc hs ih

/-! ## Kinds of tokens -/

/-- Whether a text has tokens of these kinds, wherever it stands. -/
def Spells (cs : List Char) (kinds : List TokenKind) : Prop :=
  ∀ position, ∃ ts, readFrom 0 position cs = .ok ts ∧ ts.map kind = kinds

theorem spells_of_readFrom {ts : List Token} (h : readFrom 0 0 cs = .ok ts) : Spells cs (ts.map kind) := by
  intro p
  have hs := (splits_iff.mp h).shift p
  refine ⟨_, splits_iff.mpr hs, ?_⟩
  simp [shift]

theorem Spells.append {kinds kinds' : List TokenKind} (h : Spells cs kinds) (hb : Breaks behind)
    (h' : Spells behind kinds') : Spells (cs ++ behind) (kinds ++ kinds') := by
  intro p
  obtain ⟨ts, hts, hk⟩ := h p
  obtain ⟨ts', hts', hk'⟩ := h' (p + byteLength cs)
  refine ⟨ts ++ ts', splits_iff.mpr ((splits_iff.mp hts).append hb (splits_iff.mp hts')), ?_⟩
  rw [List.map_append, hk, hk']

theorem spells_nil : Spells [] [] :=
  fun _ => ⟨[], rfl, rfl⟩

theorem Spells.blank {c : Char} {kinds : List TokenKind} (hc : isBlank c = true) (h : Spells cs kinds) :
    Spells (c :: cs) kinds := by
  intro p
  rw [readFrom, if_pos hc]
  exact h _

/-- A token, and what follows it. -/
theorem Spells.token {c : Char} {kind : TokenKind} {kinds : List TokenKind} (hc : isBlank c = false)
    (hs : Scans c (cs ++ behind) kind cs.length) (h : Spells behind kinds) :
    Spells (c :: (cs ++ behind)) (kind :: kinds) := by
  intro p
  obtain ⟨ts, hts, hk⟩ := h (p + byteLength (c :: cs))
  exact ⟨_, splits_iff.mpr (.token hc hs (splits_iff.mp hts)), congrArg (kind :: ·) hk⟩

theorem spells_one {c : Char} {kind : TokenKind} (hc : isBlank c = false) (hs : Scans c cs kind cs.length) :
    Spells (c :: cs) [kind] :=
  fun _ => ⟨_, splits_iff.mpr (splits_one hc hs), rfl⟩

/-- A character that is a token by itself. -/
theorem Spells.sign {c : Char} {kind : TokenKind} {kinds : List TokenKind} (hc : isBlank c = false)
    (hs : Scans c cs kind 0) (h : Spells cs kinds) : Spells (c :: cs) (kind :: kinds) := by
  rw [← List.nil_append cs]
  exact Spells.token hc hs h

theorem Spells.openParen {kinds : List TokenKind} (h : Spells cs kinds) : Spells ('(' :: cs) (.openParen :: kinds) :=
  h.sign (by decide) (.sign (by simp [signs]))

end FilterGuard.Token
