import OpeningHours.Interval
import OpeningHours.Week.Name

/-!
Times of day, ranges of them, and moments and intervals of the week, all as text. In a range, hours
from 24 on belong to the night after the day: `27:30` is half past three the next morning, and no
reading goes beyond `day + spill`. A plain time, as asked of the clock on the wall, ends at `23:59`.
What is written is exact to the minute. A time on a later day than the one it is told for carries the
number of days between them, as in `Sun 22:00-03:00+1`; the midnight that ends the day is written
`24:00`. Numbers are exact here; `Stored` has the same texts computed in words.
-/

namespace OpeningHours

namespace Clock

open Text

/-! ### Reading -/

/-- Reads one or two digits, after any blanks, with a value below `bound`. -/
def twoDigits? (bound : Nat) (s : List Char) : Option Nat :=
  let d := trimStart s
  if d.length ≤ 2 then (numeral? d).filter (· < bound) else none

/-- Reads `H:MM` as seconds from midnight, where hours may go on past 24. -/
def reading? (s : List Char) : Option Int := do
  let (h, m) ← cut? ':' (trim s)
  let h ← unsigned? h
  let m ← twoDigits? 60 m
  let t : Int := 3600 * h + 60 * m
  if t ≤ day + spill then some t else none

def ofText (s : String) : Except Fault Int :=
  match reading? s.toList with
  | some t => .ok t
  | none => .error (.badClock s)

/-- Reads `HH:MM-HH:MM`; the first time that cannot be read is reported. -/
def range (s : String) : Except Fault Interval :=
  match cut? '-' s.toList with
  | none => .error (.notARange s)
  | some (a, b) => do
    let start ← ofText (String.ofList a)
    let stop ← ofText (String.ofList b)
    if start < stop then .ok ⟨start, stop⟩ else .error (.reversedRange s)

/-- Reads a time between `0:00` and `23:59` as hour and minute. -/
def wallTime? (s : String) : Option (Nat × Nat) := do
  let (h, m) ← cut? ':' s.toList
  let h ← twoDigits? 24 h
  let m ← twoDigits? 60 m
  some (h, m)

/-! ### Writing -/

/-- `HH:MM` on the day that starts at `midnight`, with the number of days in between if any. -/
def time (midnight t : Int) : List Char :=
  let s := t - midnight
  let clock := twoDigits (s % day / 3600).toNat ++ ':' :: twoDigits (s % 3600 / 60).toNat
  let days := s / day
  if days = 0 then clock
  else clock ++ (if 0 < days then '+' else '-') :: digits days.natAbs

/-- The midnight at or before second `t`. -/
def midnightOf (t : Int) : Int := t / day * day

/-- The weekday and the time of a moment, the same in every week. -/
def momentChars (t : Int) : List Char :=
  (Weekday.ofMoment t).shortName.toList ++ ' ' :: time (midnightOf t) t

def momentText (t : Int) : String := String.ofList (momentChars t)

end Clock

namespace Interval

open Clock

/-- The end of an interval, told for the day it starts on. -/
def stopChars (i : Interval) : List Char :=
  let midnight := midnightOf i.start
  if i.stop = midnight + day then ['2', '4', ':', '0', '0'] else time midnight i.stop

def chars (i : Interval) : List Char :=
  if i.Proper then momentChars i.start ++ '-' :: i.stopChars else ['-']

def text (i : Interval) : String := String.ofList i.chars

end Interval

end OpeningHours
