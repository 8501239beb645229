import FilterGuard.Text.Numeral

/-!
# Dates, times of day and timestamps

The written forms `yyyy-mm-dd`, `hh:mm[:ss[.fraction]]` and the timestamps of
RFC 3339. Days are checked against the Gregorian calendar, year zero included.
A timestamp may name a sixtieth second only where a leap second can stand: at
the end of the last day of a month, in universal time.
-/

namespace FilterGuard.Calendar
open Text

def isLeapYear (year : Nat) : Bool :=
  year % 4 = 0 && (year % 100 ≠ 0 || year % 400 = 0)

def daysInMonth (year month : Nat) : Nat :=
  match month with
  | 2 => if isLeapYear year then 29 else 28
  | 4 | 6 | 9 | 11 => 30
  | _ => 31

/-- The character `c` at the front, and what follows it. -/
def mark (c : Char) (cs : List Char) : Option (List Char) :=
  match cs with
  | d :: rest => if d = c then some rest else none
  | [] => none

structure Date where
  year : Nat
  month : Nat
  day : Nat
  deriving DecidableEq, Repr

def Date.isValid (d : Date) : Bool :=
  1 ≤ d.month && d.month ≤ 12 && 1 ≤ d.day && d.day ≤ daysInMonth d.year d.month

/-- `yyyy-mm-dd` at the front. -/
def Date.read (cs : List Char) : Option (Date × List Char) := do
  let (year, cs) ← readDigits 4 cs
  let (month, cs) ← readDigits 2 (← mark '-' cs)
  let (day, cs) ← readDigits 2 (← mark '-' cs)
  let date : Date := ⟨year, month, day⟩
  if date.isValid then some (date, cs) else none

def isDate (cs : List Char) : Bool :=
  match Date.read cs with
  | some (_, []) => true
  | _ => false

/-- `hh:mm` at the front, as a number of minutes since midnight. -/
def readMinute (cs : List Char) : Option (Nat × List Char) := do
  let (hour, cs) ← readDigits 2 cs
  let (minute, cs) ← readDigits 2 (← mark ':' cs)
  if hour ≤ 23 && minute ≤ 59 then some (60 * hour + minute, cs) else none

/-- A point and at least one digit, if a point comes next. -/
def skipFraction (cs : List Char) : Option (List Char) :=
  match cs with
  | '.' :: ds => if digitRun ds = [] then none else some (afterDigits ds)
  | cs => some cs

/-- `hh:mm`, `hh:mm:ss` or `hh:mm:ss` with a fraction. -/
def isTimeOfDay (cs : List Char) : Bool :=
  let rest := do
    let (_, cs) ← readMinute cs
    match cs with
    | ':' :: cs =>
      let (second, cs) ← readDigits 2 cs
      if second ≤ 59 then skipFraction cs else none
    | cs => some cs
  rest = some []

/-- `Z`, or a signed `hh:mm`, in minutes east of universal time. -/
def readOffset (cs : List Char) : Option (Int × List Char) :=
  match cs with
  | 'Z' :: cs | 'z' :: cs => some (0, cs)
  | '+' :: cs => (readMinute cs).map fun r => ((r.1 : Int), r.2)
  | '-' :: cs => (readMinute cs).map fun r => (-(r.1 : Int), r.2)
  | _ => none

/-- Whether the given minute of a local day is the last one of a month in
universal time. An offset moves a minute by less than a day. -/
def endsMonth (date : Date) (minute : Nat) (offset : Int) : Bool :=
  let universal := (minute : Int) - offset
  universal = 1439 && date.day = daysInMonth date.year date.month ||
    universal = -1 && date.day = 1

/-- A date, any one character, a time with seconds, and an offset. -/
def isTimestamp (cs : List Char) : Bool :=
  let reading := do
    let (date, cs) ← Date.read cs
    let (minute, cs) ← readMinute (cs.drop 1)
    let (second, cs) ← readDigits 2 (← mark ':' cs)
    let (offset, cs) ← readOffset (← skipFraction cs)
    if cs = [] then some (decide (second ≤ 59) || second = 60 && endsMonth date minute offset) else none
  reading = some true

end FilterGuard.Calendar
