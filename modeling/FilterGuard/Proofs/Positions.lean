import FilterGuard.Proofs.Offending
import FilterGuard.Proofs.Spans

/-!
# Where errors point

An error that says where it is points at a character of the text, and what it says
stands there does.
-/

namespace FilterGuard
open Text

/-- The position of an error, and what the error says stands there. What it says of a
duration is the quoted text alone, which begins further on. -/
def ExprError.place? : ExprError → Option (Nat × String)
  | unexpectedCharacter char p => some (p, char.toString)
  | unterminatedString p => some (p, "'")
  | invalidLiteral _ .duration p => some (p, "")
  | invalidLiteral text _ p => some (p, text)
  | unexpectedToken found _ p => some (p, found)
  | _ => none

/-- Whether a byte position is that of a character of a text, and `shown` stands there. -/
structure PointsAt (text : String) (position : Nat) (shown : String) : Prop where
  boundary : (⟨position⟩ : String.Pos.Raw).IsValid text
  inside : position < text.utf8ByteSize
  slice : ∃ before after, text = before ++ shown ++ after ∧ position = before.utf8ByteSize

theorem pointsAt_append {before shown after : String} (h : shown ++ after ≠ "") :
    PointsAt (before ++ shown ++ after) before.utf8ByteSize shown := by
  refine ⟨?_, ?_, before, after, rfl, rfl⟩
  · exact String.Pos.Raw.isValid_iff_exists_append.mpr ⟨before, shown ++ after, String.append_assoc .., rfl⟩
  · have hpos := Nat.pos_of_ne_zero fun hz => h (String.utf8ByteSize_eq_zero_iff.mp hz)
    rw [String.append_assoc, String.utf8ByteSize_append]
    omega

namespace Token

/-- Whether a position is that of one of the characters that begin at `p`, and `shown` stands there. -/
def PointsIn (p : Nat) (cs : List Char) (position : Nat) (shown : String) : Prop :=
  ∃ before after, cs = before ++ (shown.toList ++ after) ∧ position = p + byteLength before ∧
    shown.toList ++ after ≠ []

theorem pointsIn_here {p : Nat} {cs : List Char} {shown : String} (h : shown.toList <+: cs) (hne : cs ≠ []) :
    PointsIn p cs p shown := by
  obtain ⟨after, rfl⟩ := h
  exact ⟨[], after, rfl, rfl, hne⟩

theorem PointsIn.append {p position : Nat} {cs : List Char} {shown : String} (front : List Char)
    (h : PointsIn (p + byteLength front) cs position shown) : PointsIn p (front ++ cs) position shown := by
  obtain ⟨before, after, rfl, hp, hne⟩ := h
  refine ⟨front ++ before, after, (List.append_assoc ..).symm, ?_, hne⟩
  rw [byteLength_append, hp, Nat.add_assoc]

theorem pointsAt_of_pointsIn {text shown : String} {position : Nat} (h : PointsIn 0 text.toList position shown) :
    PointsAt text position shown := by
  obtain ⟨before, after, htext, rfl, hne⟩ := h
  have hp := @pointsAt_append (String.ofList before) shown (String.ofList after)
    fun h => hne (by simpa using congrArg String.toList h)
  have htext : text = String.ofList before ++ shown ++ String.ofList after := by
    rw [← String.toList_inj, htext]
    simp
  rwa [← htext, utf8ByteSize_ofList, ← Nat.zero_add (byteLength before)] at hp

/-! ## Scanners -/

/-- Whether an error points at one of the characters that begin at `p`, if it says where it is. -/
def PointsInto (p : Nat) (cs : List Char) (e : ExprError) : Prop :=
  ∀ position shown, e.place? = some (position, shown) → PointsIn p cs position shown

variable {p : Nat} {c : Char} {cs : List Char} {e : ExprError}

theorem pointsInto_invalidLiteral {text : String} (h : text.toList <+: c :: cs) (form : LiteralForm) :
    PointsInto p (c :: cs) (.invalidLiteral text form p) := by
  intro position shown hp
  cases form <;> cases hp
  case duration => exact pointsIn_here List.nil_prefix (by simp)
  all_goals exact pointsIn_here h (by simp)

theorem pointsInto_quoted {position : Nat} {body : List Char} (h : quoted position body = .error e) :
    PointsInto position ('\'' :: body) e := by
  rw [quoted] at h
  split at h <;> cases h
  intro position shown hp
  cases hp
  exact pointsIn_here ⟨body, rfl⟩ (by simp)

theorem pointsInto_scanWord (h : scanWord p c cs = .error e) : PointsInto p (c :: cs) e := by
  rw [scanWord] at h
  split at h <;> cases h
  refine pointsInto_invalidLiteral ?_ _
  rw [String.toList_ofList]
  exact List.cons_prefix_cons.mpr ⟨rfl, List.takeWhile_prefix _⟩

theorem pointsInto_named {name body : String} (hname : name.toList <+: c :: cs)
    (h : Word.named name body p = .error e) : PointsInto p (c :: cs) e := by
  unfold Word.named at h
  split at h
  · split at h <;> cases h
    intro position shown hp
    cases hp
    exact pointsIn_here List.nil_prefix (by simp)
  · split at h <;> cases h
    exact pointsInto_invalidLiteral hname _

theorem pointsInto_scanName (h : scanName p c cs = .error e) : PointsInto p (c :: cs) e := by
  rw [scanName] at h
  split at h
  · cases h
  dsimp only at h
  split at h
  · next body hb =>
    have hcs : c :: cs = (c :: nameTail cs) ++ '\'' :: body := by
      rw [← hb]
      exact congrArg (c :: ·) (List.prefix_append_drop (prefix_nameTail cs))
    obtain h | ⟨x, -, h⟩ := bind_error h
    · rw [hcs]
      exact fun position shown hp => (pointsInto_quoted h position shown hp).append _
    obtain h | ⟨value, -, h⟩ := bind_error h
    · refine pointsInto_named ?_ h
      rw [String.toList_ofList]
      exact List.cons_prefix_cons.mpr ⟨rfl, prefix_nameTail cs⟩
    · cases h
  · split at h <;> cases h

theorem pointsInto_scan (h : scan p c cs = .error e) : PointsInto p (c :: cs) e := by
  unfold scan at h
  iterate 5
    split at h
    · cases h
  split at h
  · next hc =>
    obtain h | ⟨x, -, h⟩ := bind_error h
    · subst hc
      exact pointsInto_quoted h
    · cases h
  split at h
  · split at h
    · cases h
    · split at h
      · exact pointsInto_scanWord h
      · cases h
  split at h
  · exact pointsInto_scanWord h
  split at h
  · exact pointsInto_scanName h
  · cases h
    intro position shown hp
    cases hp
    exact pointsIn_here (by simp) (by simp)

theorem pointsInto_readFrom : ∀ {skip p : Nat} {cs : List Char}, readFrom skip p cs = .error e → PointsInto p cs e
  | _, _, [], h => by cases h
  | skip, p, c :: cs, h => by
    have hcons : PointsInto (p + c.utf8Size) cs e → PointsInto p (c :: cs) e := fun h position shown hp =>
      (h position shown hp).append [c]
    unfold readFrom at h
    split at h
    · exact hcons (pointsInto_readFrom h)
    · split at h
      · exact hcons (pointsInto_readFrom h)
      · obtain h | ⟨x, -, h⟩ := bind_error h
        · exact pointsInto_scan h
        obtain h | ⟨more, -, h⟩ := bind_error h
        · exact hcons (pointsInto_readFrom h)
        · cases h

end Token

/-! ## Parsing -/

open Grammar in
theorem exists_token_of_ofTokens {limit : Nat} {ts : List Token} {e : ExprError} (h : Expr.ofTokens limit ts = .error e)
    {position : Nat} {shown : String} (hp : e.place? = some (position, shown)) :
    ∃ t ∈ ts, t.position = position ∧ t.text = shown := by
  cases failure_of_error h with
  | refused hts =>
    cases hp
    subst hts
    exact ⟨_, List.mem_append_right _ List.mem_cons_self, rfl, rfl⟩
  | empty => cases hp
  | ended => cases hp
  | tooDeep => cases hp

/-- An error of parsing that has a position points at what it says stands in the text. -/
theorem parse_error_pointsAt {text : String} {limit : Nat} {e : ExprError} (h : Expr.parse text limit = .error e)
    {position : Nat} {shown : String} (hp : e.place? = some (position, shown)) : PointsAt text position shown := by
  obtain h | ⟨ts, hts, h⟩ := bind_error h
  · exact Token.pointsAt_of_pointsIn (Token.pointsInto_readFrom h position shown hp)
  · obtain ⟨t, ht, rfl, rfl⟩ := exists_token_of_ofTokens h hp
    obtain ⟨hne, before, after, htext, hbefore⟩ := (Token.lossless_read hts).slice t ht
    rw [htext, hbefore]
    exact pointsAt_append (by simp [hne])

theorem parse_error_pointsAt_naive :
    Expr.parse "naïve eq 12é" 256 = .error (.unexpectedToken "é" .endOfExpression 12) ∧
      PointsAt "naïve eq 12é" 12 "é" := by
  have hread : Token.read "naïve eq 12é" =
      .ok [⟨.identifier "naïve", "naïve", 0⟩, ⟨.identifier "eq", "eq", 7⟩, ⟨.literal (.int32 12), "12", 10⟩,
        ⟨.identifier "é", "é", 12⟩] := by
    decide +kernel
  have h : Expr.parse "naïve eq 12é" 256 = .error (.unexpectedToken "é" .endOfExpression 12) := ok_bind hread _
  exact ⟨h, parse_error_pointsAt h rfl⟩

end FilterGuard
