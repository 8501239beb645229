import Mathlib.Data.List.TakeWhile
import FilterGuard.Proofs.Pieces
import FilterGuard.Proofs.Steps
import FilterGuard.Rules.Fragment

/-!
# Ways to write rules

A rule can be written in many ways. What it is about and how often may be left out
where that can be told, a bound of zero may be left empty, and blanks and blank
fragments may stand anywhere between the parts. Every such text is read as the rules
that were written.
-/

namespace FilterGuard
open Text

/-! ## Texts -/

/-- A text with blanks around it. -/
def Padded (core text : List Char) : Prop :=
  ∃ front behind, allBlank front = true ∧ allBlank behind = true ∧ text = front ++ core ++ behind

/-- Texts of items one after the other, and blank ones anywhere in between. -/
inductive Spaced {α : Type} (Writes : α → List Char → Prop) : List α → List (List Char) → Prop
  | nil : Spaced Writes [] []
  | blank {items text texts} (hb : allBlank text = true) (h : Spaced Writes items texts) :
      Spaced Writes items (text :: texts)
  | item {item items text texts} (hw : Writes item text) (h : Spaced Writes items texts) :
      Spaced Writes (item :: items) (text :: texts)

namespace Fragment

/-- A name that is not empty, has no blanks at its ends, and none of the marks of the
notation in it. -/
structure IsName (name : String) : Prop where
  ne_empty : name ≠ ""
  trimmed : trim name.toList = name.toList
  unmarked : ∀ c ∈ name.toList, c ∉ ['|', ':', '[', ']']

/-- A fragment that the notation can tell: operators have no operators of their own. -/
structure Plain (f : Fragment) : Prop where
  name : IsName f.name
  operators : ∀ op ∈ f.operators, IsName op ∧ ',' ∉ op.toList
  of_operator : f.kind = .operator → f.operators = []

instance (name : String) : Decidable (IsName name) :=
  decidable_of_iff
    (name ≠ "" ∧ trim name.toList = name.toList ∧ (name.toList.all fun c => c ∉ ['|', ':', '[', ']']) = true)
    ⟨fun ⟨hn, ht, hu⟩ => ⟨hn, ht, by simpa using hu⟩, fun ⟨hn, ht, hu⟩ => ⟨hn, ht, by simpa using hu⟩⟩

instance (f : Fragment) : Decidable f.Plain :=
  decidable_of_iff
    (IsName f.name ∧ (∀ op ∈ f.operators, IsName op ∧ ',' ∉ op.toList) ∧ (f.kind = .operator → f.operators = []))
    ⟨fun ⟨hn, ho, hb⟩ => ⟨hn, ho, hb⟩, fun ⟨hn, ho, hb⟩ => ⟨hn, ho, hb⟩⟩

/-- The letters that a mark for the kind starts with. -/
def letters : RuleKind → List Char
  | .operator => ['o', 'O']
  | .property => ['p', 'P']

def WritesMark (kind : RuleKind) (text : List Char) : Prop :=
  ∃ front letter rest, allBlank front = true ∧ letter ∈ letters kind ∧ (∀ c ∈ rest, c ∉ ['|', ':']) ∧
    text = front ++ letter :: rest

/-- Digits with the bound for their value; zero needs none. -/
def WritesBound (n : UInt32) (text : List Char) : Prop :=
  ∃ digits, (∀ c ∈ digits, c.isDigit = true) ∧ decimalValue digits = n.toNat ∧ Padded digits text

/-- Both bounds, or one number if they are equal. -/
inductive WritesCount (c : Count) : List Char → Prop
  | both {least most} (hl : WritesBound c.min least) (hm : WritesBound c.max most) :
      WritesCount c (joinFields ',' [least, most])
  | one {text} (h : c.min = c.max) (ht : WritesBound c.min text) : WritesCount c text

/-- The name, with its operators in brackets if there are any. -/
inductive WritesName (f : Fragment) : List Char → Prop
  | bare {text} (h : f.operators = []) (ht : Padded f.name.toList text) : WritesName f text
  | listed {text items behind} (hk : f.kind = .property) (ht : Padded f.name.toList text)
      (hi : Spaced (fun op => Padded op.toList) f.operators items) (hb : allBlank behind = true) :
      WritesName f (text ++ '[' :: joinFields ',' items ++ ']' :: behind)

/-- The ways to write a fragment with all of its parts. -/
def WritesFull (f : Fragment) (text : List Char) : Prop :=
  ∃ mark name count, WritesMark f.kind mark ∧ WritesName f name ∧ WritesCount f.count count ∧
    text = joinFields ':' [mark, name, count]

/-- The ways to write a fragment: the mark can go if the name tells the kind, and the
count if it is free. A name behind a mark must not look like a count then. -/
inductive Writes (f : Fragment) : List Char → Prop
  | full {mark name count} (hm : WritesMark f.kind mark) (hn : WritesName f name) (hc : WritesCount f.count count) :
      Writes f (joinFields ':' [mark, name, count])
  | counted {name count} (hk : kindOf f.name.toList = f.kind) (hn : WritesName f name)
      (hc : WritesCount f.count count) : Writes f (joinFields ':' [name, count])
  | marked {mark name} (hm : WritesMark f.kind mark) (hn : WritesName f name) (hf : f.count = .free)
      (hl : looksLikeCount name = false) : Writes f (joinFields ':' [mark, name])
  | bare {name} (hk : kindOf f.name.toList = f.kind) (hn : WritesName f name) (hf : f.count = .free) :
      Writes f name

end Fragment

/-! ## Marks of the notation -/

variable {c : Char}

theorem isBlank_of_mark (hc : c ∈ ['|', ':', '[', ']']) : isBlank c = false := by
  simp only [List.mem_cons, List.not_mem_nil, or_false] at hc
  obtain rfl | rfl | rfl | rfl := hc <;> decide

theorem ne_comma_of_mark (hc : c ∈ ['|', ':', '[', ']']) : c ≠ ',' := by
  simp only [List.mem_cons, List.not_mem_nil, or_false] at hc
  obtain rfl | rfl | rfl | rfl := hc <;> decide

/-- A fragment is cut at bars and colons. -/
theorem mark_of_cut (hc : c ∈ ['|', ':']) : c ∈ ['|', ':', '[', ']'] ∧ c ≠ '[' ∧ c ≠ ']' := by
  simp only [List.mem_cons, List.not_mem_nil, or_false] at hc
  obtain rfl | rfl := hc <;> decide

theorem isDigit_of_cut (hc : c ∈ ['|', ':']) : c.isDigit = false := by
  simp only [List.mem_cons, List.not_mem_nil, or_false] at hc
  obtain rfl | rfl := hc <;> decide

/-! ## Blanks -/

theorem Padded.trim_eq {core text : List Char} (h : Padded core text) : trim text = trim core := by
  obtain ⟨front, behind, hf, hb, rfl⟩ := h
  rw [trim_append_blank hb, trim_blank_append hf]

theorem not_mem_of_blank {bs : List Char} (hb : allBlank bs = true) (hc : isBlank c = false) : c ∉ bs := by
  intro hm
  have h := List.all_eq_true.mp hb c hm
  rw [hc] at h
  cases h

theorem Padded.not_mem {core text : List Char} (h : Padded core text) (hc : isBlank c = false)
    (hn : c ∉ core) : c ∉ text := by
  obtain ⟨front, behind, hf, hb, rfl⟩ := h
  simp [hn, not_mem_of_blank hf hc, not_mem_of_blank hb hc]

/-- Trimming finds the items and leaves the blank texts empty. -/
theorem Spaced.filter_map_trim {items : List String} {texts : List (List Char)}
    (h : Spaced (fun op => Padded op.toList) items texts) (hi : ∀ i ∈ items, Fragment.IsName i) :
    ((texts.map trim).filter (· ≠ [])).map String.ofList = items := by
  induction h with
  | nil => rfl
  | blank hb _ ih =>
    rw [List.map_cons, trim_of_blank hb, List.filter_cons_of_neg (by simp)]
    exact ih hi
  | item hw _ ih =>
    obtain ⟨hn, hi⟩ := List.forall_mem_cons.mp hi
    have hne : _ ≠ [] := fun he => hn.ne_empty (String.toList_eq_nil_iff.mp he)
    rw [List.map_cons, hw.trim_eq, hn.trimmed, List.filter_cons_of_pos (by simpa using hne), List.map_cons, ih hi,
      String.ofList_toList]

theorem Spaced.not_mem {α : Type} {W : α → List Char → Prop} {items : List α} {texts : List (List Char)}
    (h : Spaced W items texts) (hc : isBlank c = false)
    (hw : ∀ i ∈ items, ∀ text, W i text → c ∉ text) : ∀ text ∈ texts, c ∉ text := by
  induction h with
  | nil => nofun
  | blank hb _ ih => exact List.forall_mem_cons.mpr ⟨not_mem_of_blank hb hc, ih hw⟩
  | item hi _ ih =>
    obtain ⟨h, hw⟩ := List.forall_mem_cons.mp hw
    exact List.forall_mem_cons.mpr ⟨h _ hi, ih hw⟩

section
variable {operators : List String} {items : List (List Char)}
  (h : Spaced (fun op => Padded op.toList) operators items)
  (ho : ∀ op ∈ operators, Fragment.IsName op ∧ ',' ∉ op.toList)
include h ho

theorem Spaced.operators_eq :
    (((fields ',' (joinFields ',' items)).map trim).filter (· ≠ [])).map String.ofList = operators := by
  by_cases hi : items = []
  · subst hi
    cases h
    rfl
  · have hc := h.not_mem (c := ',') (by decide) fun op ho' text ht => ht.not_mem (by decide) (ho op ho').2
    rw [fields_joinFields_of_not_mem hi hc, h.filter_map_trim fun op ho' => (ho op ho').1]

theorem Spaced.not_mem_operators (hc : c ∈ ['|', ':', '[', ']']) : c ∉ joinFields ',' items := by
  have hb := isBlank_of_mark hc
  intro hm
  rcases mem_of_mem_joinFields hm with rfl | ⟨item, hi, hm⟩
  · exact ne_comma_of_mark hc rfl
  · exact h.not_mem hb (fun op ho' text ht => ht.not_mem hb fun hm => (ho op ho').1.unmarked c hm hc) item hi hm

end

/-! ## Bounds -/

theorem readBound_digits {ds : List Char} {n : UInt32} (hd : ∀ c ∈ ds, c.isDigit = true)
    (hv : decimalValue ds = n.toNat) : readBound ds = .ok n := by
  have hplus : ds.head? ≠ some '+' := fun h => not_mem_digits hd (by decide) (List.mem_of_mem_head? h)
  have hrun : digitRun ds = ds := List.takeWhile_eq_self_iff.mpr hd
  have hafter : afterDigits ds = [] := List.dropWhile_eq_nil_iff.mpr hd
  rw [readBound_eq hplus, hrun, hv, if_pos n.toNat_lt, if_pos hafter, UInt32.ofNat_toNat]

namespace Fragment

theorem trim_digits {ds : List Char} (hd : ∀ c ∈ ds, c.isDigit = true) : trim ds = ds := by
  have hdrop : ∀ {ds : List Char}, (∀ c ∈ ds, c.isDigit = true) → dropBlanks ds = ds := by
    intro ds hd
    cases ds with
    | nil => rfl
    | cons d ds => exact List.dropWhile_cons_of_neg (by simp [not_isBlank_of_isDigit (hd d (by simp))])
  rw [trim, hdrop hd, hdrop fun c hc => hd c (List.mem_reverse.mp hc), List.reverse_reverse]

theorem WritesBound.readBound_eq {n : UInt32} {text : List Char} (h : WritesBound n text) :
    readBound (trim text) = .ok n := by
  obtain ⟨ds, hd, hv, hp⟩ := h
  rw [hp.trim_eq, trim_digits hd, readBound_digits hd hv]

theorem WritesBound.not_mem {n : UInt32} {text : List Char} (h : WritesBound n text)
    (hb : isBlank c = false) (hc : c.isDigit = false) : c ∉ text := by
  obtain ⟨ds, hd, -, hp⟩ := h
  exact hp.not_mem hb (not_mem_digits hd hc)

theorem WritesBound.no_comma {m n : UInt32} {least most : List Char} (hl : WritesBound m least)
    (hm : WritesBound n most) : ∀ piece ∈ [least, most], ',' ∉ piece := by
  have hm : ',' ∉ most := hm.not_mem (by decide) (by decide)
  exact List.forall_mem_cons.mpr ⟨hl.not_mem (by decide) (by decide), List.forall_mem_singleton.mpr hm⟩

theorem filter_blank {bs : List Char} (h : allBlank bs = true) : bs.filter (fun c => !isBlank c) = [] := by
  rw [List.filter_eq_nil_iff]
  intro c hc
  simp [List.all_eq_true.mp h c hc]

theorem WritesBound.all_isDigit {n : UInt32} {text : List Char} (h : WritesBound n text) :
    (text.filter fun c => !isBlank c).all Char.isDigit = true := by
  obtain ⟨ds, hd, -, front, behind, hf, hb, rfl⟩ := h
  rw [List.filter_append, List.filter_append, filter_blank hf, filter_blank hb, List.nil_append, List.append_nil,
    List.all_eq_true]
  exact fun c hc => hd c (List.mem_filter.mp hc).1

/-! ## Counts -/

theorem looksLikeCount_trim (cs : List Char) : looksLikeCount (trim cs) = looksLikeCount cs := by
  obtain ⟨front, behind, hf, hb, hcs⟩ := exists_trim cs
  have h : cs.filter (fun c => !isBlank c) = (trim cs).filter fun c => !isBlank c := by
    rw [hcs, trim_append_blank hb, trim_blank_append hf, trim_trim, List.filter_append, List.filter_append,
      filter_blank hf, filter_blank hb, List.nil_append, List.append_nil]
  rw [looksLikeCount, looksLikeCount, h]

theorem WritesCount.looksLikeCount {c : Count} {text : List Char} (h : WritesCount c text) :
    looksLikeCount text = true := by
  rw [Fragment.looksLikeCount, fields_filter (by decide)]
  cases h with
  | both hl hm =>
    rw [fields_joinFields_of_not_mem (List.cons_ne_nil _ _) (hl.no_comma hm)]
    exact Bool.and_eq_true_iff.mpr ⟨hl.all_isDigit, hm.all_isDigit⟩
  | one _ ht =>
    rw [fields_of_not_mem (ht.not_mem (by decide) (by decide))]
    exact ht.all_isDigit

theorem WritesCount.readCount_eq {c : Count} {text : List Char} (h : WritesCount c text) (fragment : List Char) :
    readCount fragment (trim text) = .ok c := by
  cases h with
  | both hl hm =>
    -- The pieces of the trimmed text are the two bounds but for blanks.
    have hf := map_trim_fields_joinFields (by decide) (List.cons_ne_nil _ _) (hl.no_comma hm)
    obtain ⟨x, xs, hx, hxl, hxs⟩ := List.map_eq_cons_iff.mp hf
    obtain ⟨y, ys, rfl, hym, hys⟩ := List.map_eq_cons_iff.mp hxs
    rw [List.map_eq_nil_iff.mp hys] at hx
    rw [readCount, hx]
    simp only [hxl, hym, hl.readBound_eq, hm.readBound_eq]
    rfl
  | one heq ht =>
    have hf : (fields ',' (trim text)).map trim = (fields ',' text).map trim := map_trim_fields_trim (by decide) text
    rw [fields_of_not_mem (ht.not_mem (by decide) (by decide))] at hf
    obtain ⟨x, xs, hx, hxt, hxs⟩ := List.map_eq_cons_iff.mp hf
    rw [List.map_eq_nil_iff.mp hxs] at hx
    rw [readCount, hx]
    simp only [hxt, ht.readBound_eq]
    obtain ⟨least, most⟩ := c
    cases heq
    rfl

theorem WritesCount.not_mem {count : Count} {text : List Char} (h : WritesCount count text)
    (hc : c ∈ ['|', ':']) : c ∉ text := by
  have hm := (mark_of_cut hc).1
  have bound : ∀ {n : UInt32} {text : List Char}, WritesBound n text → c ∉ text :=
    fun h => h.not_mem (isBlank_of_mark hm) (isDigit_of_cut hc)
  cases h with
  | both hl hm =>
    intro h
    simp only [joinFields, List.mem_append, List.mem_cons] at h
    rcases h with h | h | h
    · exact bound hl h
    · exact ne_comma_of_mark (mark_of_cut hc).1 h
    · exact bound hm h
  | one _ ht => exact bound ht

/-! ## Names -/

theorem not_isBlank_of_trim {cs : List Char} (h : trim (c :: cs) = c :: cs) : isBlank c = false := by
  have hd := List.head?_dropWhile_not isBlank (c :: cs)
  have ht := head?_trim (c :: cs)
  rw [h, dropBlanks] at ht
  rw [← ht] at hd
  simpa using hd

theorem takeWhile_append_cons {p : Char → Bool} {cs : List Char} (hcs : ∀ d ∈ cs, p d = true)
    (hc : p c = false) (ds : List Char) : (cs ++ c :: ds).takeWhile p = cs := by
  rw [List.takeWhile_append_of_pos hcs, List.takeWhile_cons_of_neg (by simp [hc]), List.append_nil]

theorem dropWhile_append_cons {p : Char → Bool} {cs : List Char} (hcs : ∀ d ∈ cs, p d = true)
    (hc : p c = false) (ds : List Char) : (cs ++ c :: ds).dropWhile p = c :: ds := by
  rw [List.dropWhile_append_of_pos hcs, List.dropWhile_cons_of_neg (by simp [hc])]

theorem forall_ne_of_not_mem {cs : List Char} (h : c ∉ cs) : ∀ d ∈ cs, decide (d ≠ c) = true :=
  fun _ hd => decide_eq_true fun he => h (he ▸ hd)

/-- What is in brackets is read apart from the name before them. -/
theorem readBrackets_listed {fragment base inner : List Char} (hb : '[' ∉ base) (hi : '[' ∉ inner ∧ ']' ∉ inner) :
    readBrackets fragment (base ++ '[' :: (inner ++ [']'])) =
      .ok (trim base, (((fields ',' inner).map trim).filter (· ≠ [])).map String.ofList) := by
  have hin := forall_ne_of_not_mem hi.2
  rw [readBrackets]
  simp only [takeWhile_append_cons (forall_ne_of_not_mem hb), dropWhile_append_cons (forall_ne_of_not_mem hb),
    takeWhile_append_cons hin, dropWhile_append_cons hin, ne_eq, not_true_eq_false, decide_false]
  rw [if_neg]
  simp [hi.1, allBlank]

theorem readBrackets_bare {fragment name : List Char} (ho : '[' ∉ name) (hc : ']' ∉ name) :
    readBrackets fragment name = .ok (name, []) := by
  have htake : name.takeWhile (· ≠ '[') = name := List.takeWhile_eq_self_iff.mpr (forall_ne_of_not_mem ho)
  have hdrop : name.dropWhile (· ≠ '[') = [] := List.dropWhile_eq_nil_iff.mpr (forall_ne_of_not_mem ho)
  rw [readBrackets]
  simp only [htake, hdrop]
  rw [if_neg (by simpa using hc)]

theorem WritesName.readBrackets_eq {f : Fragment} {text : List Char} (h : WritesName f text) (hp : f.Plain)
    (fragment : List Char) : readBrackets fragment (trim text) = .ok (f.name.toList, f.operators) := by
  have hfree : ∀ c ∈ ['|', ':', '[', ']'], c ∉ f.name.toList := fun c hc hm => hp.name.unmarked c hm hc
  cases h with
  | bare hl ht =>
    rw [ht.trim_eq, hp.name.trimmed, hl]
    exact readBrackets_bare (hfree _ (by simp)) (hfree _ (by simp))
  | @listed text items behind _ ht hi hb =>
    obtain ⟨front, back, hf, hbk, rfl⟩ := ht
    obtain ⟨first, rest, hn⟩ : ∃ first rest, f.name.toList = first :: rest :=
      List.exists_cons_of_ne_nil fun he => hp.name.ne_empty (String.toList_eq_nil_iff.mp he)
    have htrim : trim (front ++ f.name.toList ++ back ++ '[' :: joinFields ',' items ++ ']' :: behind) =
        f.name.toList ++ back ++ '[' :: (joinFields ',' items ++ [']']) := by
      have hfirst : isBlank first = false := not_isBlank_of_trim (hn ▸ hp.name.trimmed)
      have hsplit : front ++ f.name.toList ++ back ++ '[' :: joinFields ',' items ++ ']' :: behind =
          front ++ (first :: (rest ++ back ++ '[' :: joinFields ',' items ++ [']'])) ++ behind := by
        simp [hn]
      rw [hsplit, trim_append_blank hb, trim_blank_append hf, trim_eq_self hfirst (by decide)]
      simp [hn]
    have hbase : '[' ∉ f.name.toList ++ back := by
      simp [hfree, not_mem_of_blank hbk (c := '[') (by decide)]
    rw [htrim, readBrackets_listed hbase ⟨hi.not_mem_operators hp.operators (by simp),
      hi.not_mem_operators hp.operators (by simp)⟩, hi.operators_eq hp.operators, trim_append_blank hbk,
      hp.name.trimmed]

theorem WritesName.not_mem {f : Fragment} {text : List Char} (h : WritesName f text) (hp : f.Plain)
    (hc : c ∈ ['|', ':']) : c ∉ text := by
  obtain ⟨hm, hne⟩ := mark_of_cut hc
  have hb := isBlank_of_mark hm
  have hn : c ∉ f.name.toList := fun h => hp.name.unmarked c h hm
  cases h with
  | bare _ ht => exact ht.not_mem hb hn
  | listed _ ht hi hbl =>
    simp [ht.not_mem hb hn, hi.not_mem_operators hp.operators hm, not_mem_of_blank hbl hb, hne]

/-! ## Marks -/

/-- The letters of a mark are neither blanks nor bars or colons. -/
theorem of_mem_letters {kind : RuleKind} (h : c ∈ letters kind) : isBlank c = false ∧ c ∉ ['|', ':'] := by
  cases kind with
  | operator =>
    obtain rfl | rfl : c = 'o' ∨ c = 'O' := by simpa [letters] using h
    all_goals decide
  | property =>
    obtain rfl | rfl : c = 'p' ∨ c = 'P' := by simpa [letters] using h
    all_goals decide

theorem WritesMark.markedKind_eq {kind : RuleKind} {text : List Char} (h : WritesMark kind text) (name : List Char) :
    markedKind (some (trim text)) name = kind := by
  obtain ⟨front, letter, rest, hf, hl, -, rfl⟩ := h
  have hhead : (trim (front ++ letter :: rest)).head? = some letter := by
    rw [head?_trim, dropBlanks_blank_append hf, dropBlanks,
      List.dropWhile_cons_of_neg (by simp [(of_mem_letters hl).1]), List.head?_cons]
  rw [markedKind, Option.bind_some, hhead]
  cases kind with
  | operator =>
    obtain rfl | rfl : letter = 'o' ∨ letter = 'O' := by simpa [letters] using hl
    all_goals rfl
  | property =>
    obtain rfl | rfl : letter = 'p' ∨ letter = 'P' := by simpa [letters] using hl
    all_goals rfl

theorem WritesMark.not_mem {kind : RuleKind} {text : List Char} (h : WritesMark kind text)
    (hc : c ∈ ['|', ':']) : c ∉ text := by
  obtain ⟨front, letter, rest, hf, hl, hr, rfl⟩ := h
  have hne : c ≠ letter := fun he => (of_mem_letters hl).2 (he ▸ hc)
  have hrest : c ∉ rest := fun h => hr c h hc
  simp [not_mem_of_blank hf (isBlank_of_mark (mark_of_cut hc).1), hne, hrest]

/-! ## Fragments -/

/-- What the parts of a text have to be for a fragment to be read from it. -/
theorem read_of_parts {f : Fragment} {text name : List Char} {mark count : Option (List Char)}
    (hp : parts (trim text) = (mark, trim name, count)) (hf : f.Plain) (hn : WritesName f name)
    (hk : markedKind mark f.name.toList = f.kind)
    (hc : (match count with
      | some count => readCount (trim text) count
      | none => .ok .free) = .ok f.count) : read text = .ok f := by
  have hne : ¬f.name.toList = [] := fun he => hf.name.ne_empty (String.toList_eq_nil_iff.mp he)
  have hbare : ¬(f.kind = .operator ∧ ((trim name).contains '[' = true ∨ (trim name).contains ']' = true)) := by
    rintro ⟨ho, hb⟩
    cases hn with
    | bare _ ht =>
      rw [ht.trim_eq, hf.name.trimmed] at hb
      rcases hb with hb | hb
      · exact hf.name.unmarked '[' (List.contains_iff_mem.mp hb) (by simp)
      · exact hf.name.unmarked ']' (List.contains_iff_mem.mp hb) (by simp)
    | listed hk =>
      rw [hk] at ho
      cases ho
  have hb := hn.readBrackets_eq hf (trim text)
  unfold read
  simp only [hp, hb]
  cases count with
  | none =>
    simp only [bind, Except.bind, if_neg hne, hk, if_neg hbare, String.ofList_toList, Except.ok.inj hc]
    rfl
  | some count =>
    simp only [bind, Except.bind, show readCount (trim text) count = .ok f.count from hc, if_neg hne, hk,
      if_neg hbare, String.ofList_toList]
    rfl

theorem parts_three {cs mark name count : List Char} (h : (fields ':' cs).map trim = [mark, name, count]) :
    parts cs = (some mark, name, some count) := by
  rw [parts, h]

theorem parts_two {cs first second : List Char} (h : (fields ':' cs).map trim = [first, second]) :
    parts cs = if looksLikeCount second then (none, first, some second) else (some first, second, none) := by
  rw [parts, h]

theorem parts_one {cs name : List Char} (h : (fields ':' cs).map trim = [name]) : parts cs = (none, name, none) := by
  rw [parts, h]

theorem Writes.read_eq {f : Fragment} {text : List Char} (h : Writes f text) (hf : f.Plain) : read text = .ok f := by
  have hcolon : ∀ {mark : List Char}, WritesMark f.kind mark → ':' ∉ mark := fun hm => hm.not_mem (by simp)
  cases h with
  | @full mark name count hm hn hc =>
    have hp : ∀ piece ∈ [mark, name, count], ':' ∉ piece := by
      simp [hcolon hm, hn.not_mem hf, hc.not_mem]
    have hparts := parts_three (map_trim_fields_joinFields (by decide) (List.cons_ne_nil _ _) hp)
    exact read_of_parts hparts hf hn (hm.markedKind_eq _) (hc.readCount_eq _)
  | @counted name count hk hn hc =>
    have hp : ∀ piece ∈ [name, count], ':' ∉ piece := by
      simp [hn.not_mem hf, hc.not_mem]
    have hparts := parts_two (map_trim_fields_joinFields (by decide) (List.cons_ne_nil _ _) hp)
    rw [looksLikeCount_trim, hc.looksLikeCount, if_pos rfl] at hparts
    exact read_of_parts hparts hf hn hk (hc.readCount_eq _)
  | @marked mark name hm hn hc hl =>
    have hp : ∀ piece ∈ [mark, name], ':' ∉ piece := by
      simp [hcolon hm, hn.not_mem hf]
    have hparts := parts_two (map_trim_fields_joinFields (by decide) (List.cons_ne_nil _ _) hp)
    rw [looksLikeCount_trim, hl, if_neg Bool.false_ne_true] at hparts
    exact read_of_parts hparts hf hn (hm.markedKind_eq _) (congrArg Except.ok hc.symm)
  | bare hk hn hc =>
    have hp : ∀ piece ∈ [text], ':' ∉ piece := by
      simp [hn.not_mem hf]
    have hparts := parts_one (map_trim_fields_joinFields (by decide) (List.cons_ne_nil _ _) hp)
    exact read_of_parts hparts hf hn hk (congrArg Except.ok hc.symm)

theorem Writes.no_bar {f : Fragment} {text : List Char} (h : Writes f text) (hf : f.Plain) : '|' ∉ text := by
  cases h with
  | full hm hn hc => simp [joinFields, hm.not_mem, hn.not_mem hf, hc.not_mem]
  | counted _ hn hc => simp [joinFields, hn.not_mem hf, hc.not_mem]
  | marked hm hn => simp [joinFields, hm.not_mem, hn.not_mem hf]
  | bare _ hn => exact hn.not_mem hf (by simp)

theorem WritesFull.writes {f : Fragment} {text : List Char} (h : WritesFull f text) : Writes f text := by
  obtain ⟨mark, name, count, hm, hn, hc, rfl⟩ := h
  exact .full hm hn hc

theorem WritesFull.head?_eq {f : Fragment} {text : List Char} (h : WritesFull f text) :
    ∃ letter ∈ letters f.kind, (trim text).head? = some letter := by
  obtain ⟨_, name, count, ⟨front, letter, rest, hf, hl, -, rfl⟩, -, -, rfl⟩ := h
  refine ⟨letter, hl, ?_⟩
  rw [joinFields_cons_cons, List.append_assoc, head?_trim, dropBlanks_blank_append hf, List.cons_append, dropBlanks,
    List.dropWhile_cons_of_neg (by simp [(of_mem_letters hl).1]), List.head?_cons]

theorem allBlank_of_read_eq {f : Fragment} {text : List Char} (h : read text = .ok f) : allBlank text = false := by
  refine Bool.eq_false_iff.mpr fun hb => ?_
  have hblank : read text = read [] := by rw [read, read, trim_of_blank hb]; rfl
  rw [hblank] at h
  cases h

/-! ## Rule texts -/

/-- Texts that are read one by one are read together, with blank ones between them. -/
theorem readAll_of_read {W : Fragment → List Char → Prop} {fs : List Fragment} {texts : List (List Char)}
    (hr : ∀ f ∈ fs, ∀ text, W f text → read text = .ok f ∧ '|' ∉ text) (hw : Spaced W fs texts) :
    readAll (joinFields '|' texts) = .ok fs := by
  have hread : (texts.filter fun t => !allBlank t).mapM read = .ok fs := by
    induction hw with
    | nil => rfl
    | blank hb _ ih =>
      rw [List.filter_cons_of_neg (by simp [hb])]
      exact ih hr
    | item hf _ ih =>
      obtain ⟨hrf, hr⟩ := List.forall_mem_cons.mp hr
      have hf := (hrf _ hf).1
      rw [List.filter_cons_of_pos (by simp [allBlank_of_read_eq hf]), List.mapM_cons, ok_bind hf, ok_bind (ih hr)]
      rfl
  by_cases ht : texts = []
  · subst ht
    cases hw
    rfl
  · have hbar := hw.not_mem (c := '|') (by decide) fun f hf text ht => (hr f hf text ht).2
    rw [readAll, fields_joinFields_of_not_mem ht hbar, hread]

/-- Fragments written in any way, with bars and blanks between them, are read again. -/
theorem readAll_of_writes {fs : List Fragment} {texts : List (List Char)} (hp : ∀ f ∈ fs, f.Plain)
    (hw : Spaced Writes fs texts) : readAll (joinFields '|' texts) = .ok fs :=
  readAll_of_read (fun f hf _ ht => ⟨ht.read_eq (hp f hf), ht.no_bar (hp f hf)⟩) hw

theorem readAll_mixed :
    readAll "Op :add: ,02| |name [ eq,, in ]: 1,2|p:not|eq".toList =
      .ok [⟨.operator, "add", ⟨0, 2⟩, []⟩, ⟨.property, "name", ⟨1, 2⟩, ["eq", "in"]⟩, ⟨.property, "not", .free, []⟩,
        ⟨.operator, "eq", .free, []⟩] := by
  have hpad : ∀ cs : List Char, Padded cs cs := fun cs => ⟨[], [], rfl, rfl, by simp⟩
  have hspace : ∀ cs : List Char, Padded cs (' ' :: cs) := fun cs => ⟨[' '], [], rfl, rfl, by simp⟩
  have hadd : Writes ⟨.operator, "add", ⟨0, 2⟩, []⟩
      (joinFields ':' ["Op ".toList, "add".toList, joinFields ',' [[' '], "02".toList]]) := by
    refine .full ⟨[], 'O', ['p', ' '], rfl, by decide, by simp, rfl⟩ (.bare rfl (hpad _)) (.both ?_ ?_)
    · exact ⟨[], by simp, rfl, hspace _⟩
    · exact ⟨['0', '2'], by simp, rfl, hpad _⟩
  have hname : Writes ⟨.property, "name", ⟨1, 2⟩, ["eq", "in"]⟩
      (joinFields ':' ["name ".toList ++ '[' :: joinFields ',' [" eq".toList, [], " in ".toList] ++ [']'],
        joinFields ',' [" 1".toList, ['2']]]) := by
    refine .counted rfl (.listed rfl ⟨[], [' '], rfl, rfl, rfl⟩ ?_ rfl) (.both ?_ ?_)
    · exact .item (hspace _) (.blank rfl (.item ⟨[' '], [' '], rfl, rfl, rfl⟩ .nil))
    · exact ⟨['1'], by simp, rfl, hspace _⟩
    · exact ⟨['2'], by simp, rfl, hpad _⟩
  have hnot : Writes ⟨.property, "not", .free, []⟩ (joinFields ':' [['p'], "not".toList]) :=
    .marked ⟨[], 'p', [], rfl, by decide, nofun, rfl⟩ (.bare rfl (hpad _)) rfl rfl
  have heq : Writes ⟨.operator, "eq", .free, []⟩ "eq".toList := .bare rfl (.bare rfl (hpad _)) rfl
  have hblank : allBlank [' '] = true := rfl
  exact readAll_of_writes (by decide) (.item hadd (.blank hblank (.item hname (.item hnot (.item heq .nil)))))

end Fragment

end FilterGuard
