import FilterGuard.Text.Numeral

/-!
# Durations

The body of a duration literal: a sign, `P`, days, and behind `T` hours,
minutes and seconds, of which every part may be missing. A body of a single
character is refused.
-/

namespace FilterGuard.Calendar
open Text

/-- Drops digits and the unit behind them, if they come next. -/
def skipComponent (unit : Char) (cs : List Char) : List Char :=
  match digitRun cs, afterDigits cs with
  | _ :: _, u :: rest => if u = unit then rest else cs
  | _, _ => cs

/-- Drops a number of seconds, which may have a fraction. -/
def skipSeconds (cs : List Char) : List Char :=
  match digitRun cs, afterDigits cs with
  | _ :: _, 'S' :: rest => rest
  | _ :: _, '.' :: more =>
    match digitRun more, afterDigits more with
    | _ :: _, 'S' :: rest => rest
    | _, _ => cs
  | _, _ => cs

/-- Drops the time part, if `T` comes next. -/
def skipTime (cs : List Char) : List Char :=
  match cs with
  | 'T' :: rest => skipSeconds (skipComponent 'M' (skipComponent 'H' rest))
  | cs => cs

def isDuration (cs : List Char) : Bool :=
  let unsigned := match cs with
    | '-' :: rest => rest
    | cs => cs
  match unsigned with
  | 'P' :: rest => decide (1 < cs.length) && skipTime (skipComponent 'D' rest) = []
  | _ => false

end FilterGuard.Calendar
