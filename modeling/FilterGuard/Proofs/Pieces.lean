import FilterGuard.Text.Blank
import FilterGuard.Text.Fields

/-!
# Pieces and the blanks around them

What has been joined is cut into its pieces again. The blanks at the ends of a text
are at the ends of its first and its last piece, so that a text can be trimmed before
or after it is cut.
-/

namespace FilterGuard.Text

/-! ## Blanks -/

variable {bs : List Char}

theorem dropBlanks_blank_append (h : allBlank bs = true) (cs : List Char) :
    dropBlanks (bs ++ cs) = dropBlanks cs :=
  List.dropWhile_append_of_pos (List.all_eq_true.mp h)

theorem dropBlanks_of_blank (h : allBlank bs = true) : dropBlanks bs = [] := by
  have hd := dropBlanks_blank_append h []
  rwa [List.append_nil] at hd

theorem allBlank_reverse (h : allBlank bs = true) : allBlank bs.reverse = true := by
  rw [allBlank, List.all_reverse]
  exact h

theorem trim_blank_append (h : allBlank bs = true) (cs : List Char) : trim (bs ++ cs) = trim cs := by
  rw [trim, trim, dropBlanks_blank_append h]

theorem trim_append_blank (h : allBlank bs = true) (cs : List Char) : trim (cs ++ bs) = trim cs := by
  have hr := allBlank_reverse h
  rw [trim, trim]
  have hd : dropBlanks (cs ++ bs) = if (dropBlanks cs).isEmpty then dropBlanks bs else dropBlanks cs ++ bs :=
    List.dropWhile_append
  cases he : dropBlanks cs with
  | nil =>
    rw [he, dropBlanks_of_blank h] at hd
    rw [hd]
    rfl
  | cons c more =>
    rw [he] at hd
    rw [hd, List.isEmpty_cons, if_neg Bool.false_ne_true, List.reverse_append, dropBlanks_blank_append hr]

theorem trim_of_blank (h : allBlank bs = true) : trim bs = [] := by
  have ht := trim_append_blank h []
  rwa [List.nil_append] at ht

theorem exists_trim (cs : List Char) :
    ∃ front behind, allBlank front = true ∧ allBlank behind = true ∧ cs = front ++ trim cs ++ behind := by
  have hall : ∀ cs : List Char, allBlank (cs.takeWhile isBlank) = true := fun cs => by
    rw [allBlank, List.all_takeWhile]
  have hr : (dropBlanks cs).reverse.takeWhile isBlank ++ (trim cs).reverse = (dropBlanks cs).reverse := by
    rw [trim, List.reverse_reverse, dropBlanks, dropBlanks, List.takeWhile_append_dropWhile]
  refine ⟨cs.takeWhile isBlank, ((dropBlanks cs).reverse.takeWhile isBlank).reverse, hall _,
    allBlank_reverse (hall _), ?_⟩
  have hd := congrArg List.reverse hr
  rw [List.reverse_append, List.reverse_reverse, List.reverse_reverse] at hd
  rw [List.append_assoc, hd, dropBlanks, List.takeWhile_append_dropWhile]

@[simp] theorem trim_trim (cs : List Char) : trim (trim cs) = trim cs := by
  obtain ⟨front, behind, hf, hb, hcs⟩ := exists_trim cs
  have h := congrArg trim hcs
  rw [trim_append_blank hb, trim_blank_append hf] at h
  exact h.symm

theorem trim_eq_nil_iff {cs : List Char} : trim cs = [] ↔ allBlank cs = true := by
  refine ⟨fun h => ?_, trim_of_blank⟩
  obtain ⟨front, behind, hf, hb, hcs⟩ := exists_trim cs
  rw [h, List.append_nil] at hcs
  rw [hcs, allBlank, List.all_append]
  exact Bool.and_eq_true_iff.mpr ⟨hf, hb⟩

theorem head?_trim (cs : List Char) : (trim cs).head? = (dropBlanks cs).head? := by
  obtain ⟨front, behind, hf, hb, hcs⟩ := exists_trim cs
  cases ht : trim cs with
  | nil => rw [dropBlanks_of_blank (trim_eq_nil_iff.mp ht)]
  | cons c more =>
    have hc : isBlank c = false := by
      -- A blank in front would be trimmed away once more.
      refine Bool.eq_false_iff.mpr fun hc => ?_
      have hl : (trim more).length ≤ more.length := by
        rw [trim, List.length_reverse]
        refine Nat.le_trans (List.dropWhile_suffix _).length_le ?_
        rw [List.length_reverse]
        exact (List.dropWhile_suffix _).length_le
      have h := trim_trim cs
      rw [ht, ← List.singleton_append, trim_blank_append (by simpa [allBlank] using hc)] at h
      rw [h, List.length_append, List.length_singleton] at hl
      omega
    rw [hcs, ht, List.append_assoc, dropBlanks_blank_append hf]
    simp [dropBlanks, hc]

/-! ## Pieces -/

variable {sep : Char}

theorem fields_of_not_mem {cs : List Char} (h : sep ∉ cs) : fields sep cs = [cs] := by
  induction cs with
  | nil => rfl
  | cons c cs ih =>
    rw [List.mem_cons, not_or] at h
    rw [fields, if_neg (Ne.symm h.1), ih h.2]

theorem fields_append_sep (cs ds : List Char) : fields sep (cs ++ sep :: ds) = fields sep cs ++ fields sep ds := by
  induction cs with
  | nil => simp [fields]
  | cons c cs ih =>
    rw [List.cons_append, fields, fields, ih]
    obtain ⟨first, rest, hf⟩ := List.exists_cons_of_ne_nil (fields_ne_nil sep cs)
    rw [hf]
    split <;> rfl

theorem joinFields_cons_cons (piece next : List Char) (rest : List (List Char)) :
    joinFields sep (piece :: next :: rest) = piece ++ sep :: joinFields sep (next :: rest) := rfl

theorem fields_joinFields {pieces : List (List Char)} (h : pieces ≠ []) :
    fields sep (joinFields sep pieces) = pieces.flatMap (fields sep) := by
  induction pieces with
  | nil => exact absurd rfl h
  | cons piece rest ih =>
    cases rest with
    | nil => rw [joinFields, List.flatMap_cons, List.flatMap_nil, List.append_nil]
    | cons next rest =>
      rw [joinFields_cons_cons, fields_append_sep, ih (List.cons_ne_nil _ _), List.flatMap_cons (x := piece)]

theorem flatMap_fields_of_not_mem : ∀ {pieces : List (List Char)}, (∀ piece ∈ pieces, sep ∉ piece) →
    pieces.flatMap (fields sep) = pieces
  | [], _ => rfl
  | piece :: pieces, h => by
    obtain ⟨hp, h⟩ := List.forall_mem_cons.mp h
    rw [List.flatMap_cons, fields_of_not_mem hp, flatMap_fields_of_not_mem h, List.singleton_append]

theorem fields_joinFields_of_not_mem {pieces : List (List Char)} (hne : pieces ≠ [])
    (h : ∀ piece ∈ pieces, sep ∉ piece) : fields sep (joinFields sep pieces) = pieces := by
  rw [fields_joinFields hne, flatMap_fields_of_not_mem h]

theorem mem_of_mem_joinFields {c : Char} : ∀ {pieces : List (List Char)}, c ∈ joinFields sep pieces →
    c = sep ∨ ∃ piece ∈ pieces, c ∈ piece
  | [], h => by cases h
  | [piece], h => .inr ⟨piece, by simp, h⟩
  | piece :: next :: rest, h => by
    rw [joinFields_cons_cons, List.mem_append, List.mem_cons] at h
    rcases h with h | h | h
    · exact .inr ⟨piece, by simp, h⟩
    · exact .inl h
    · refine (mem_of_mem_joinFields h).imp_right fun ⟨p, hp, hc⟩ => ⟨p, List.mem_cons_of_mem _ hp, hc⟩

/-- A joined text starts like one of its pieces, or with the separator. -/
theorem head?_trim_joinFields (hsep : isBlank sep = false) (pieces : List (List Char)) :
    (trim (joinFields sep pieces)).head? = none ∨ (trim (joinFields sep pieces)).head? = some sep ∨
      ∃ piece ∈ pieces, (trim (joinFields sep pieces)).head? = (trim piece).head? := by
  match pieces with
  | [] => exact .inl rfl
  | [piece] => exact .inr (.inr ⟨piece, by simp, rfl⟩)
  | piece :: next :: rest =>
    rw [joinFields_cons_cons, head?_trim, dropBlanks, List.dropWhile_append, ← dropBlanks]
    cases hp : dropBlanks piece with
    | nil => exact .inr (.inl (by simp [hsep]))
    | cons c more =>
      refine .inr (.inr ⟨piece, by simp, ?_⟩)
      rw [head?_trim, hp]
      rfl

theorem fields_filter {p : Char → Bool} (hp : p sep = true) (cs : List Char) :
    fields sep (cs.filter p) = (fields sep cs).map (List.filter p) := by
  induction cs with
  | nil => rfl
  | cons c cs ih =>
    obtain ⟨first, rest, hf⟩ := List.exists_cons_of_ne_nil (fields_ne_nil sep cs)
    by_cases hc : c = sep
    · subst hc
      rw [List.filter_cons_of_pos hp, fields, if_pos rfl, fields, if_pos rfl, ih]
      rfl
    · rw [hf, List.map_cons] at ih
      rw [fields, if_neg hc, hf]
      cases hpc : p c with
      | true => rw [List.filter_cons_of_pos hpc, fields, if_neg hc, ih, List.map_cons, List.filter_cons_of_pos hpc]
      | false =>
        rw [List.filter_cons_of_neg (by simp [hpc]), ih, List.map_cons, List.filter_cons_of_neg (by simp [hpc])]

theorem fields_append_of_not_mem (h : sep ∉ bs) (cs : List Char) :
    ∃ pieces last, fields sep cs = pieces ++ [last] ∧ fields sep (cs ++ bs) = pieces ++ [last ++ bs] := by
  induction cs with
  | nil => exact ⟨[], [], rfl, fields_of_not_mem h⟩
  | cons c cs ih =>
    obtain ⟨pieces, last, h₁, h₂⟩ := ih
    rw [List.cons_append, fields, fields, h₁, h₂]
    by_cases hc : c = sep
    · exact ⟨[] :: pieces, last, by rw [if_pos hc]; rfl, by rw [if_pos hc]; rfl⟩
    · rw [if_neg hc, if_neg hc]
      cases pieces with
      | nil => exact ⟨[], c :: last, rfl, rfl⟩
      | cons first pieces => exact ⟨(c :: first) :: pieces, last, rfl, rfl⟩

theorem fields_not_mem_append (h : sep ∉ bs) (cs : List Char) :
    ∃ first pieces, fields sep cs = first :: pieces ∧ fields sep (bs ++ cs) = (bs ++ first) :: pieces := by
  obtain ⟨first, pieces, hf⟩ := List.exists_cons_of_ne_nil (fields_ne_nil sep cs)
  refine ⟨first, pieces, hf, ?_⟩
  induction bs with
  | nil => exact hf
  | cons b bs ih =>
    rw [List.mem_cons, not_or] at h
    rw [List.cons_append, fields, if_neg (Ne.symm h.1), ih h.2]
    rfl

/-- A text can be trimmed before its pieces are. -/
theorem map_trim_fields_trim (hsep : isBlank sep = false) (cs : List Char) :
    (fields sep (trim cs)).map trim = (fields sep cs).map trim := by
  have hclear : ∀ {bs : List Char}, allBlank bs = true → sep ∉ bs := by
    intro bs hb hm
    have := List.all_eq_true.mp hb sep hm
    rw [hsep] at this
    cases this
  obtain ⟨front, behind, hf, hb, hcs⟩ := exists_trim cs
  obtain ⟨first, pieces, h₁, h₂⟩ := fields_not_mem_append (hclear hf) (trim cs)
  obtain ⟨pieces', last, h₃, h₄⟩ := fields_append_of_not_mem (hclear hb) (front ++ trim cs)
  have hlast : (fields sep cs).map trim = (fields sep (front ++ trim cs)).map trim := by
    rw [hcs, trim_append_blank hb, trim_blank_append hf, trim_trim, h₃, h₄]
    simp [trim_append_blank hb]
  rw [hlast, h₁, h₂, List.map_cons, List.map_cons, trim_blank_append hf]

theorem map_trim_fields_joinFields (hsep : isBlank sep = false) {pieces : List (List Char)} (hne : pieces ≠ [])
    (h : ∀ piece ∈ pieces, sep ∉ piece) : (fields sep (trim (joinFields sep pieces))).map trim = pieces.map trim := by
  rw [map_trim_fields_trim hsep, fields_joinFields_of_not_mem hne h]

end FilterGuard.Text
