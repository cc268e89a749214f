/-!
The weekly cycle. Seconds count from Monday midnight in local time; a moment and the same moment one
week later are the same place on the cycle.
-/

namespace OpeningHours

/-- Seconds in a day. -/
def day : Int := 86400

/-- Seconds in a week. -/
def week : Int := 604800

/-- How far past midnight an opening still counts as part of the day it began on. -/
def spill : Int := 21600

/-- Monday is `0`, Sunday is `6`. -/
abbrev Weekday := Fin 7

namespace Weekday

def monday : Weekday := 0

def sunday : Weekday := 6

/-- All days of the week, Monday first. -/
def all : List Weekday := List.finRange 7

def ofIndex? (n : Nat) : Option Weekday := if h : n < 7 then some ⟨n, h⟩ else none

/-- The first second of the day. -/
def midnight (d : Weekday) : Int := d.val * day

/-- The second at `h:m:s` on the day. -/
def moment (d : Weekday) (h m s : Nat) : Int := d.midnight + (3600 * h + 60 * m + s : Nat)

/-- The day that holds second `t` of the cycle. -/
def ofMoment (t : Int) : Weekday := Fin.ofNat 7 ((t / day) % 7).toNat

end Weekday

end OpeningHours
