import FilterGuard.Calendar
import FilterGuard.Calendar.Duration
import FilterGuard.ExprError
import FilterGuard.Literal
import FilterGuard.Text.Fold

/-!
# Words that are literals

A word that starts with a digit, or with a minus and a digit, is one literal.
Its shape decides the form that it must have: a globally unique identifier, a
date or a timestamp, a time of day, else a number.
-/

namespace FilterGuard.Word
open Text

def isHex (c : Char) : Bool :=
  c.isDigit || ('a' ≤ c && c ≤ 'f') || ('A' ≤ c && c ≤ 'F')

/-- The lengths of the groups of hexadecimal digits in a globally unique identifier. -/
def guidGroups : List Nat := [8, 4, 4, 4, 12]

def guidLength : Nat := 36

/-- What follows groups of hexadecimal digits with hyphens between them. -/
def afterGroups : List Nat → List Char → Option (List Char)
  | [], cs => some cs
  | n :: groups, cs =>
    if (cs.take n).length = n ∧ (cs.take n).all isHex then
      match groups, cs.drop n with
      | [], rest => some rest
      | _ :: _, '-' :: rest => afterGroups groups rest
      | _ :: _, _ => none
    else none

/-- What follows a globally unique identifier, if there is one at the front. -/
def afterGuid (cs : List Char) : Option (List Char) :=
  afterGroups guidGroups cs

/-- The characters of a literal word after its first. -/
def isWordTail (c : Char) : Bool :=
  c.isAlphanum || c = '.' || c = ':' || c = '+' || c = '-'

/-- A point and at least one digit are dropped, if they come next. -/
def dropFraction (cs : List Char) : List Char :=
  match cs with
  | '.' :: more => if digitRun more = [] then cs else afterDigits more
  | _ => cs

/-- Drops a letter e, a sign and at least one digit, if they come next. -/
def dropExponent (cs : List Char) : List Char :=
  let digits (more : List Char) := if digitRun more = [] then cs else afterDigits more
  match cs with
  | e :: s :: more =>
    if e = 'e' ∨ e = 'E' then
      if s = '+' ∨ s = '-' then digits more else digits (s :: more)
    else cs
  | _ => cs

/-- What follows a number: a minus, digits, a fraction and an exponent, of which
only the digits must be there. -/
def afterNumber (cs : List Char) : Option (List Char) :=
  let unsigned := match cs with
    | '-' :: rest => rest
    | cs => cs
  if digitRun unsigned = [] then none
  else some (dropExponent (dropFraction (afterDigits unsigned)))

/-- An integer takes the narrowest of its two types, and is a decimal number
when it fits in neither. -/
def integerLiteral (number : List Char) : Literal :=
  match readInteger number with
  | some n =>
    if Int32.minValue.toInt ≤ n ∧ n ≤ Int32.maxValue.toInt then .int32 (Int32.ofInt n)
    else if Int64.minValue.toInt ≤ n ∧ n ≤ Int64.maxValue.toInt then .int64 (Int64.ofInt n)
    else .decimal (String.ofList number)
  | none => .decimal (String.ofList number)

/-- An integer with the suffix of 64-bit integers. -/
def longLiteral (number : List Char) : Option Literal :=
  match readInteger number with
  | some n =>
    if Int64.minValue.toInt ≤ n ∧ n ≤ Int64.maxValue.toInt then some (.int64 (Int64.ofInt n))
    else none
  | none => none

/-- A number and its suffix, or the form that the word fails to have. -/
def number (word : List Char) : Except LiteralForm Literal :=
  match afterNumber word with
  | none => .error .numeric
  | some suffix =>
    let digits := word.take (word.length - suffix.length)
    let text := String.ofList digits
    let hasExponent := digits.any fun c => c = 'e' || c = 'E'
    match suffix with
    | [] =>
      .ok (if hasExponent then .double text
        else if digits.contains '.' then .decimal text
        else integerLiteral digits)
    | [c] =>
      if c = 'l' ∨ c = 'L' then
        match longLiteral digits with
        | some value => .ok value
        | none => .error .int64
      else if c = 'm' ∨ c = 'M' then .ok (.decimal text)
      else if c = 'd' ∨ c = 'D' then .ok (.double text)
      else if c = 'f' ∨ c = 'F' then .ok (.single text)
      else .error .numeric
    | _ => .error .numeric

/-- Whether a word of at least ten characters has hyphens where a date has them. -/
def looksLikeDate (word : List Char) : Bool :=
  10 ≤ word.length && word[4]? = some '-' && word[7]? = some '-'

/-- The literal that a word is, or the form that it fails to have. -/
def classify (word : List Char) : Except LiteralForm Literal :=
  let text := String.ofList word
  if afterGuid word = some [] then .ok (.guid text)
  else if looksLikeDate word then
    if 10 < word.length then
      if Calendar.isTimestamp word then .ok (.dateTimeOffset text) else .error .dateTimeOffset
    else if Calendar.isDate word then .ok (.date text) else .error .date
  else if word.contains ':' then
    if Calendar.isTimeOfDay word then .ok (.timeOfDay text) else .error .timeOfDay
  else number word

/-- A name directly in front of a quoted body: a duration, or the member of an
enumeration, whose name is qualified. -/
def named (name body : String) (position : Nat) : Except ExprError Literal :=
  if sameName name "duration" then
    if Calendar.isDuration body.toList then .ok (.duration body)
    else .error (.invalidLiteral body .duration position)
  else if name.toList.contains '.' then .ok (.enum name body)
  else .error (.invalidLiteral name .typed position)

end FilterGuard.Word
