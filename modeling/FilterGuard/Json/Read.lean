import FilterGuard.Json
import FilterGuard.Text.Numeral

/-!
# Reading JSON

A strict reader: no trailing commas, no leading zeros, no control characters in
strings, nothing after the value but blanks. It fails on what is not well formed
and marks as `unreadable` what is well formed but stands for no value.
-/

namespace FilterGuard.Json
open Text

def isSpace (c : Char) : Bool :=
  c = ' ' || c = '\n' || c = '\t' || c = '\r'

def skipSpace (cs : List Char) : List Char :=
  cs.dropWhile isSpace

/-! ## Strings -/

def hexValue (c : Char) : Option Nat :=
  if c.isDigit then some (c.toNat - '0'.toNat)
  else if 'a' ≤ c ∧ c ≤ 'f' then some (c.toNat - 'a'.toNat + 10)
  else if 'A' ≤ c ∧ c ≤ 'F' then some (c.toNat - 'A'.toNat + 10)
  else none

/-- A 16-bit unit written with four hexadecimal digits. -/
def codeUnit (a b c d : Char) : Option Nat := do
  return 4096 * (← hexValue a) + 256 * (← hexValue b) + 16 * (← hexValue c) + (← hexValue d)

def isHighHalf (u : Nat) : Bool :=
  0xD800 ≤ u && u ≤ 0xDBFF

def isLowHalf (u : Nat) : Bool :=
  0xDC00 ≤ u && u ≤ 0xDFFF

/-- The character of a surrogate pair. -/
def pairChar (high low : Nat) : Char :=
  Char.ofNat (0x10000 + 0x400 * (high - 0xD800) + (low - 0xDC00))

def letterEscape (c : Char) : Option Char :=
  if c = '"' ∨ c = '\\' ∨ c = '/' then some c
  else if c = 'b' then some '\x08'
  else if c = 'f' then some '\x0C'
  else if c = 'n' then some '\n'
  else if c = 'r' then some '\r'
  else if c = 't' then some '\t'
  else none

/-- A piece of a string: a character, or a 16-bit unit escaped by number. -/
inductive Piece where
  | char (c : Char)
  | unit (u : Nat)

/-- The pieces of a string behind its opening quote, and what follows the closing one. -/
def stringPieces : List Char → Option (List Piece × List Char)
  | [] => none
  | '"' :: rest => some ([], rest)
  | '\\' :: 'u' :: a :: b :: c :: d :: rest =>
    match codeUnit a b c d with
    | none => none
    | some u => (stringPieces rest).map fun r => (.unit u :: r.1, r.2)
  | '\\' :: c :: rest =>
    match letterEscape c with
    | none => none
    | some d => (stringPieces rest).map fun r => (.char d :: r.1, r.2)
  | c :: rest =>
    if c.toNat < 0x20 then none
    else (stringPieces rest).map fun r => (.char c :: r.1, r.2)

/-- The characters that pieces make up, behind the high half of a pair that waits
for its low half. Half of a pair alone is no character. -/
def joinHalves : Option Nat → List Piece → List (Option Char)
  | none, [] => []
  | some _, [] => [none]
  | none, .char c :: ps => some c :: joinHalves none ps
  | some _, .char c :: ps => none :: some c :: joinHalves none ps
  | none, .unit u :: ps =>
    if isHighHalf u then joinHalves (some u) ps
    else if isLowHalf u then none :: joinHalves none ps
    else some (Char.ofNat u) :: joinHalves none ps
  | some high, .unit u :: ps =>
    if isLowHalf u then some (pairChar high u) :: joinHalves none ps
    else if isHighHalf u then none :: joinHalves (some u) ps
    else none :: some (Char.ofNat u) :: joinHalves none ps

def allSome {α : Type u} : List (Option α) → Option (List α)
  | [] => some []
  | none :: _ => none
  | some a :: rest => (allSome rest).map (a :: ·)

/-! ## Numbers -/

/-- The least value that rounds to infinity among doubles. -/
def doubleOverflow : Nat := Nat.pow 2 1024 - Nat.pow 2 970

/-- Whether `digits` times ten to the power `scale` is beyond the doubles. The
number of digits settles it unless it is near the bound. -/
def overflows (digits : List Char) (scale : Int) : Bool :=
  let digits := digits.dropWhile (· = '0')
  let size := (digits.length : Int) + scale
  if digits = [] then false
  else if 310 < size then true
  else if size < 308 then false
  else if 0 ≤ scale then doubleOverflow ≤ decimalValue digits * Nat.pow 10 scale.toNat
  else doubleOverflow * Nat.pow 10 (-scale).toNat ≤ decimalValue digits

/-- The whole part of a number: a zero, or digits that start with another one. -/
def wholePart (cs : List Char) : Option (List Char × List Char) :=
  match digitRun cs with
  | [] => none
  | ['0'] => some (['0'], afterDigits cs)
  | '0' :: _ => none
  | ds => some (ds, afterDigits cs)

/-- The digits of a fraction, if a point comes next. -/
def fraction (cs : List Char) : Option (Option (List Char) × List Char) :=
  match cs with
  | '.' :: more => if digitRun more = [] then none else some (some (digitRun more), afterDigits more)
  | cs => some (none, cs)

/-- An exponent, if the letter e comes next. -/
def exponent (cs : List Char) : Option (Option Int × List Char) :=
  let digits (sign : Int) (more : List Char) :=
    if digitRun more = [] then none
    else some (some (sign * decimalValue (digitRun more)), afterDigits more)
  match cs with
  | e :: more =>
    if e = 'e' ∨ e = 'E' then
      match more with
      | '+' :: more => digits 1 more
      | '-' :: more => digits (-1) more
      | more => digits 1 more
    else some (none, cs)
  | [] => some (none, [])

def number (cs : List Char) : Option (Json × List Char) := do
  let (negative, unsigned) := match cs with
    | '-' :: rest => (true, rest)
    | cs => (false, cs)
  let (whole, rest) ← wholePart unsigned
  let (decimals, rest) ← fraction rest
  let (power, rest) ← exponent rest
  let text := String.ofList (cs.take (cs.length - rest.length))
  let places := (decimals.getD []).length
  if overflows (whole ++ decimals.getD []) (power.getD 0 - places) then return (unreadable, rest)
  else if decimals.isSome || power.isSome || negative && whole = ['0'] then return (real text, rest)
  else
    let value : Int := decimalValue whole
    return (integer (if negative then -value else value), rest)

/-! ## Values -/

def depthLimit : Nat := 127

def sealed (depth : Nat) (value : Json) : Json :=
  if depth < depthLimit then value else unreadable

/-- An object, unless one of its keys is no text. -/
def ofFields (fields : List (Option String × Json)) : Json :=
  match allSome (fields.map fun f => f.1.map fun key => (key, f.2)) with
  | some fields => object fields
  | none => unreadable

/-- The text of a string, unless a part of it is no character. -/
def textOf (pieces : List Piece) : Option String :=
  (allSome (joinHalves none pieces)).map String.ofList

mutual

/-- A value inside `depth` containers, and what follows it. The fuel bounds the
number of steps. -/
def value : Nat → Nat → List Char → Option (Json × List Char)
  | 0, _, _ => none
  | fuel + 1, depth, cs =>
    match skipSpace cs with
    | 'n' :: 'u' :: 'l' :: 'l' :: rest => some (null, rest)
    | 't' :: 'r' :: 'u' :: 'e' :: rest => some (bool true, rest)
    | 'f' :: 'a' :: 'l' :: 's' :: 'e' :: rest => some (bool false, rest)
    | '"' :: rest => (stringPieces rest).map fun r => ((textOf r.1).elim unreadable string, r.2)
    | '[' :: rest =>
      match skipSpace rest with
      | ']' :: rest => some (sealed depth (array []), rest)
      | rest => (items fuel (depth + 1) rest).map fun r => (sealed depth (array r.1), r.2)
    | '\x7b' :: rest =>
      match skipSpace rest with
      | '\x7d' :: rest => some (sealed depth (object []), rest)
      | rest => (fields fuel (depth + 1) rest).map fun r => (sealed depth (ofFields r.1), r.2)
    | rest => number rest

def items : Nat → Nat → List Char → Option (List Json × List Char)
  | 0, _, _ => none
  | fuel + 1, depth, cs =>
    match value fuel depth cs with
    | none => none
    | some (item, rest) =>
      match skipSpace rest with
      | ',' :: rest => (items fuel depth rest).map fun r => (item :: r.1, r.2)
      | ']' :: rest => some ([item], rest)
      | _ => none

def fields : Nat → Nat → List Char → Option (List (Option String × Json) × List Char)
  | 0, _, _ => none
  | fuel + 1, depth, cs =>
    match skipSpace cs with
    | '"' :: rest =>
      match stringPieces rest with
      | none => none
      | some (key, rest) =>
        match skipSpace rest with
        | ':' :: rest =>
          match value fuel depth rest with
          | none => none
          | some (item, rest) =>
            match skipSpace rest with
            | ',' :: rest => (fields fuel depth rest).map fun r => ((textOf key, item) :: r.1, r.2)
            | '\x7d' :: rest => some ([(textOf key, item)], rest)
            | _ => none
        | _ => none
    | _ => none

end

/-- The value that a text writes. A step passes a character, or opens a value
behind one, so twice the length is fuel enough. -/
def readChars (cs : List Char) : Option Json :=
  match value (2 * cs.length + 2) 0 cs with
  | some (v, rest) => if skipSpace rest = [] then some v else none
  | none => none

def read (text : String) : Option Json :=
  readChars text.toList

end FilterGuard.Json
