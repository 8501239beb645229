import FilterGuard.Proofs.Steps
import FilterGuard.Token.Scan

/-!
# What a token can be

One rule for each way in which a token can begin, with all that the reader looks at
for it. Where a token stands matters to its errors only.
-/

namespace FilterGuard.Token
open Text

/-- Characters that are read by themselves or begin something else than a name. -/
def marks : List Char := ['(', ')', ',', ':', '/', '\'', '-']

/-- The characters that are tokens by themselves. -/
def signs : List (Char × TokenKind) :=
  [('(', .openParen), (')', .closeParen), (',', .comma), (':', .colon), ('/', .slash)]

/-- A character that begins a name, or a globally unique identifier that is none. -/
structure Opens (c : Char) : Prop where
  mark : c ∉ marks
  digit : c.isDigit = false
  starts : startsName c = true

/-- What a name is without a quoted text behind it. -/
def kindOfName (name : String) : TokenKind :=
  if name = "INF" ∨ name = "NaN" then .literal (.double name) else .identifier name

/-- Which token begins with `c` in front of `cs`, and how many characters of `cs` belong to it. -/
inductive Scans (c : Char) (cs : List Char) : TokenKind → Nat → Prop
  | sign {kind : TokenKind} (hc : (c, kind) ∈ signs) : Scans c cs kind 0
  | string {value : List Char} {n : Nat} (hc : c = '\'') (hq : Quoted.read cs = some (value, n)) :
      Scans c cs (.literal (.string (String.ofList value))) n
  | infinity (hc : c = '-') (hi : cs.take 3 = ['I', 'N', 'F']) : Scans c cs (.literal (.double "-INF")) 3
  | minus (hc : c = '-') (hi : cs.take 3 ≠ ['I', 'N', 'F']) (hd : cs.head?.any Char.isDigit = false) :
      Scans c cs .minus 0
  | word {value : Literal} (hc : c.isDigit = true ∨ c = '-' ∧ cs.head?.any Char.isDigit = true)
      (hw : Word.classify (c :: cs.takeWhile Word.isWordTail) = .ok value) :
      Scans c cs (.literal value) (cs.takeWhile Word.isWordTail).length
  | guid (hc : Opens c) (hg : startsWithGuid (c :: cs) = true) :
      Scans c cs (.literal (.guid (String.ofList ((c :: cs).take Word.guidLength)))) (Word.guidLength - 1)
  | named {body value : List Char} {n : Nat} {literal : Literal} (hc : Opens c)
      (hg : startsWithGuid (c :: cs) = false) (hb : cs.drop (nameTail cs).length = '\'' :: body)
      (hq : Quoted.read body = some (value, n))
      (hn : ∀ p, Word.named (String.ofList (c :: nameTail cs)) (String.ofList value) p = .ok literal) :
      Scans c cs (.literal literal) ((nameTail cs).length + 1 + n)
  | name (hc : Opens c) (hg : startsWithGuid (c :: cs) = false)
      (hb : (cs.drop (nameTail cs).length).head? ≠ some '\'') :
      Scans c cs (kindOfName (String.ofList (c :: nameTail cs))) (nameTail cs).length

theorem named_elsewhere {name body : String} {p : Nat} {value : Literal} (h : Word.named name body p = .ok value)
    (p' : Nat) : Word.named name body p' = .ok value := by
  unfold Word.named at h ⊢
  split at h <;> split at h <;> simp_all

theorem quoted_eq_ok_iff {p : Nat} {cs : List Char} {value : String} {n : Nat} :
    quoted p cs = .ok (value, n) ↔ ∃ text, Quoted.read cs = some (text, n) ∧ String.ofList text = value := by
  rw [quoted]
  cases Quoted.read cs with
  | none => simp
  | some r => simp [Prod.ext_iff, and_comm]

variable {p : Nat} {c : Char} {cs : List Char} {kind : TokenKind} {n : Nat}

theorem scanWord_eq_ok_iff : scanWord p c cs = .ok (kind, n) ↔
    ∃ value, Word.classify (c :: cs.takeWhile Word.isWordTail) = .ok value ∧ kind = .literal value ∧
      n = (cs.takeWhile Word.isWordTail).length := by
  simp only [scanWord]
  cases Word.classify (c :: cs.takeWhile Word.isWordTail) with
  | error form => simp
  | ok value => simp [eq_comm]

/-! ## From the reader -/

theorem scans_of_scanName (hc : Opens c) (h : scanName p c cs = .ok (kind, n)) : Scans c cs kind n := by
  rw [scanName] at h
  by_cases hg : startsWithGuid (c :: cs) = true
  · rw [if_pos hg] at h
    cases h
    exact .guid hc hg
  · rw [if_neg hg] at h
    have hg := Bool.eq_false_iff.mpr hg
    dsimp only at h
    split at h
    · next body hb =>
      obtain ⟨⟨value, m⟩, hq, h⟩ := bind_ok h
      obtain ⟨literal, hn, h⟩ := bind_ok h
      obtain ⟨text, hr, rfl⟩ := quoted_eq_ok_iff.mp hq
      cases h
      exact .named hc hg hb hr (named_elsewhere hn)
    · next hb =>
      have hquote : (cs.drop (nameTail cs).length).head? ≠ some '\'' := by
        intro hq
        cases hd : cs.drop (nameTail cs).length with
        | nil => simp [hd] at hq
        | cons q body =>
          rw [hd] at hq
          cases hq
          exact hb body hd
      have hname := Scans.name hc hg hquote
      by_cases hs : String.ofList (c :: nameTail cs) = "INF" ∨ String.ofList (c :: nameTail cs) = "NaN"
      · rw [if_pos hs] at h
        rw [kindOfName, if_pos hs] at hname
        cases h
        exact hname
      · rw [if_neg hs] at h
        rw [kindOfName, if_neg hs] at hname
        cases h
        exact hname

theorem scans_of_scan (h : scan p c cs = .ok (kind, n)) : Scans c cs kind n := by
  unfold scan at h
  iterate 5
    split at h
    · next hc =>
      cases h
      exact .sign (by simp [signs, hc])
  split at h
  · next hc =>
    obtain ⟨⟨value, m⟩, hq, h⟩ := bind_ok h
    obtain ⟨text, hr, rfl⟩ := quoted_eq_ok_iff.mp hq
    cases h
    exact .string hc hr
  split at h
  · next hc =>
    split at h
    · next hi =>
      cases h
      exact .infinity hc hi
    · next hi =>
      split at h
      · next hd =>
        obtain ⟨value, hw, rfl, rfl⟩ := scanWord_eq_ok_iff.mp h
        exact .word (.inr ⟨hc, hd⟩) hw
      · next hd =>
        cases h
        exact .minus hc hi (Bool.eq_false_iff.mpr hd)
  split at h
  · next hd =>
    obtain ⟨value, hw, rfl, rfl⟩ := scanWord_eq_ok_iff.mp h
    exact .word (.inl hd) hw
  split at h
  · next hd hs =>
    have hc : Opens c := ⟨by simp [marks, *], Bool.eq_false_iff.mpr hd, hs⟩
    exact scans_of_scanName hc h
  · cases h

/-! ## To the reader -/

theorem scan_digit (h : c.isDigit = true) (p : Nat) (cs : List Char) : scan p c cs = scanWord p c cs := by
  have hm : c ∉ marks := by
    intro hm
    simp only [marks, List.mem_cons, List.not_mem_nil, or_false] at hm
    obtain rfl | rfl | rfl | rfl | rfl | rfl | rfl := hm <;> cases h
  simp only [marks, List.mem_cons, List.not_mem_nil, or_false, not_or] at hm
  simp [scan, hm, h]

theorem scan_hyphen (p : Nat) (cs : List Char) :
    scan p '-' cs = if cs.take 3 = ['I', 'N', 'F'] then .ok (.literal (.double "-INF"), 3)
      else if cs.head?.any Char.isDigit then scanWord p '-' cs else .ok (.minus, 0) := rfl

theorem scan_minus (h : cs.head?.any Char.isDigit = true) (p : Nat) : scan p '-' cs = scanWord p '-' cs := by
  have hi : cs.take 3 ≠ ['I', 'N', 'F'] := by
    intro hi
    cases cs with
    | nil => cases hi
    | cons d ds =>
      rw [List.take_succ_cons] at hi
      obtain ⟨rfl, -⟩ := List.cons.inj hi
      cases h
  rw [scan_hyphen, if_neg hi, if_pos h]

theorem Opens.scan_eq (h : Opens c) (p : Nat) (cs : List Char) : scan p c cs = scanName p c cs := by
  have hm := h.mark
  simp only [marks, List.mem_cons, List.not_mem_nil, or_false, not_or] at hm
  simp [scan, hm, h.digit, h.starts]

theorem scan_of_scans (h : Scans c cs kind n) (p : Nat) : scan p c cs = .ok (kind, n) := by
  cases h with
  | sign hc =>
    simp only [signs, List.mem_cons, Prod.mk.injEq, List.not_mem_nil, or_false] at hc
    obtain ⟨rfl, rfl⟩ | ⟨rfl, rfl⟩ | ⟨rfl, rfl⟩ | ⟨rfl, rfl⟩ | ⟨rfl, rfl⟩ := hc <;> rfl
  | string hc hq =>
    subst hc
    exact ok_bind (quoted_eq_ok_iff.mpr ⟨_, hq, rfl⟩) _
  | infinity hc hi =>
    subst hc
    exact if_pos hi
  | minus hc hi hd =>
    subst hc
    rw [scan_hyphen, if_neg hi, if_neg (Bool.eq_false_iff.mp hd)]
  | word hc hw =>
    have hs : scan p c cs = scanWord p c cs := by
      obtain hd | ⟨rfl, hd⟩ := hc
      · exact scan_digit hd p cs
      · exact scan_minus hd p
    rw [hs]
    exact scanWord_eq_ok_iff.mpr ⟨_, hw, rfl, rfl⟩
  | guid hc hg => rw [hc.scan_eq, scanName, if_pos hg]
  | named hc hg hb hq hn =>
    rw [hc.scan_eq, scanName, if_neg (Bool.eq_false_iff.mp hg)]
    dsimp only
    rw [hb]
    exact (ok_bind (quoted_eq_ok_iff.mpr ⟨_, hq, rfl⟩) _).trans (ok_bind (hn p) _)
  | name hc hg hb =>
    rw [hc.scan_eq, scanName, if_neg (Bool.eq_false_iff.mp hg)]
    dsimp only
    split
    · next body hd => simp [hd] at hb
    · rw [kindOfName]
      split <;> rfl

theorem scan_eq_ok_iff : scan p c cs = .ok (kind, n) ↔ Scans c cs kind n :=
  ⟨scans_of_scan, fun h => scan_of_scans h p⟩

end FilterGuard.Token
