/-!
# Decimal numerals

Runs of ASCII digits and their values, and the reading of a bound that has to
fit in 32 bits. A bound is read from the left, so whichever fault comes first
is the one reported.
-/

namespace FilterGuard.Text

def digitValue (c : Char) : Nat :=
  c.toNat - '0'.toNat

/-- The number written by a run of digits; the empty run writes zero. -/
def decimalValue (cs : List Char) : Nat :=
  cs.foldl (fun n c => 10 * n + digitValue c) 0

theorem decimalValue_append_digit (cs : List Char) (c : Char) :
    decimalValue (cs ++ [c]) = 10 * decimalValue cs + digitValue c := by
  simp [decimalValue]

/-- The run of digits at the front. -/
def digitRun (cs : List Char) : List Char :=
  cs.takeWhile Char.isDigit

def afterDigits (cs : List Char) : List Char :=
  cs.dropWhile Char.isDigit

theorem not_mem_digits {ds : List Char} (hd : ∀ c ∈ ds, c.isDigit = true) {c : Char} (hc : c.isDigit = false) :
    c ∉ ds := by
  intro hm
  have h := hd c hm
  rw [hc] at h
  cases h

theorem digitRun_append_afterDigits (cs : List Char) : digitRun cs ++ afterDigits cs = cs :=
  List.takeWhile_append_dropWhile

section
variable {ds rest : List Char} (hd : ∀ c ∈ ds, c.isDigit = true) (hr : ∀ c ∈ rest.head?, c.isDigit = false)
include hd hr

theorem afterDigits_append : afterDigits (ds ++ rest) = rest := by
  rw [afterDigits, List.dropWhile_append_of_pos hd]
  cases rest with
  | nil => rfl
  | cons c cs => exact List.dropWhile_cons_of_neg (by simp [hr c rfl])

/-- Digits in front of something else are all that is read of it. -/
theorem digitRun_append : digitRun (ds ++ rest) = ds := by
  have h := digitRun_append_afterDigits (ds ++ rest)
  rw [afterDigits_append hd hr] at h
  exact List.append_cancel_right h

end

/-- Exactly `n` digits at the front: their value and what follows them. -/
def readDigits (n : Nat) (cs : List Char) : Option (Nat × List Char) :=
  if (cs.take n).length = n ∧ (cs.take n).all Char.isDigit then
    some (decimalValue (cs.take n), cs.drop n)
  else none

/-- An optional minus and at least one digit, up to the end. -/
def readInteger (cs : List Char) : Option Int :=
  match cs with
  | '-' :: ds => if ds ≠ [] ∧ ds.all Char.isDigit then some (-(decimalValue ds : Int)) else none
  | ds => if ds ≠ [] ∧ ds.all Char.isDigit then some (decimalValue ds : Int) else none

/-- What can be wrong with a bound. -/
inductive BoundFault where
  | notADigit
  | tooLarge
  deriving DecidableEq, Repr

def BoundFault.message : BoundFault → String
  | .notADigit => "invalid digit found in string"
  | .tooLarge => "number too large to fit in target type"

/-- The digits `cs` behind the number `n`, as long as the number fits in 32 bits. -/
def readBoundFrom (n : UInt32) : List Char → Except BoundFault UInt32
  | [] => .ok n
  | c :: cs =>
    if c.isDigit then
      if 10 * n.toNat + digitValue c < UInt32.size then
        readBoundFrom (UInt32.ofNat (10 * n.toNat + digitValue c)) cs
      else .error .tooLarge
    else .error .notADigit

/-- A bound: an optional plus and digits. The empty text is zero. -/
def readBound : List Char → Except BoundFault UInt32
  | ['+'] => .error .notADigit
  | '+' :: cs => readBoundFrom 0 cs
  | cs => readBoundFrom 0 cs

theorem le_foldl_digits : ∀ (cs : List Char) (n : Nat), n ≤ cs.foldl (fun n c => 10 * n + digitValue c) n
  | [], n => Nat.le_refl n
  | c :: cs, n => Nat.le_trans (by omega) (le_foldl_digits cs (10 * n + digitValue c))

/-- Digits that make too large a number are found before anything that stands behind them. -/
theorem readBoundFrom_eq (n : UInt32) (cs : List Char) :
    readBoundFrom n cs =
      let m := (digitRun cs).foldl (fun n c => 10 * n + digitValue c) n.toNat
      if m < UInt32.size then if afterDigits cs = [] then .ok (UInt32.ofNat m) else .error .notADigit
      else .error .tooLarge := by
  induction cs generalizing n with
  | nil => simp [readBoundFrom, digitRun, afterDigits, n.toNat_lt]
  | cons c cs ih =>
    by_cases hc : c.isDigit = true
    · have hrun : digitRun (c :: cs) = c :: digitRun cs := List.takeWhile_cons_of_pos hc
      have hafter : afterDigits (c :: cs) = afterDigits cs := List.dropWhile_cons_of_pos hc
      rw [readBoundFrom, if_pos hc, hrun, hafter, List.foldl_cons]
      by_cases hfit : 10 * n.toNat + digitValue c < UInt32.size
      · rw [if_pos hfit, ih, UInt32.toNat_ofNat_of_lt' hfit]
      · have hle := le_foldl_digits (digitRun cs) (10 * n.toNat + digitValue c)
        simp only [if_neg hfit]
        rw [if_neg (by omega)]
    · have hrun : digitRun (c :: cs) = [] := List.takeWhile_cons_of_neg hc
      have hafter : afterDigits (c :: cs) = c :: cs := List.dropWhile_cons_of_neg hc
      rw [readBoundFrom, if_neg hc, hrun, hafter]
      simp [n.toNat_lt]

theorem readBound_eq {cs : List Char} (h : cs.head? ≠ some '+') :
    readBound cs =
      if decimalValue (digitRun cs) < UInt32.size then
        if afterDigits cs = [] then .ok (UInt32.ofNat (decimalValue (digitRun cs))) else .error .notADigit
      else .error .tooLarge := by
  unfold readBound
  split
  · exact absurd rfl h
  · exact absurd rfl h
  · exact readBoundFrom_eq 0 _

end FilterGuard.Text
