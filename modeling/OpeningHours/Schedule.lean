import OpeningHours.Hours.Day
import OpeningHours.Timezone

/-!
Schedules and how they are stored. An interval is stored as the pair of its ends, which must be 32-bit
integers, and hours as the list of their intervals, in order and as they are. A schedule is weekly
hours in the local time of a timezone, of which only the name is kept; a schedule without one counts
as not set. Stored schedules are in normal form: writing normalizes, and reading normalizes what others
have written. Edits are made one at a time or in a row; reloading stores a schedule and reads it back.
-/

namespace OpeningHours

open Json

/-! ### Stored hours -/

namespace Interval

def toJson (i : Interval) : Value := .array [.ofInt i.start, .ofInt i.stop]

def ofJson? : Value → Option Interval
  | .array [a, b] => do some ⟨← a.toInt32?, ← b.toInt32?⟩
  | _ => none

def render (i : Interval) : String := i.toJson.render

def parse : String → Except Fault Interval := Value.load ofJson?

end Interval

namespace Hours

def toJson (h : Hours) : Value := .ofList Interval.toJson h

def ofJson? (v : Value) : Option Hours := v.toList? Interval.ofJson?

def render (h : Hours) : String := h.toJson.render

def parse : String → Except Fault Hours := Value.load ofJson?

end Hours

/-! ### Schedules -/

structure Schedule where
  hours : Hours
  /-- the identifier of a timezone, or empty -/
  zone : String
deriving DecidableEq, Repr

namespace Schedule

def empty : Schedule := ⟨[], ""⟩

def isSet (s : Schedule) : Bool := s.zone ≠ ""

def normalize (s : Schedule) : Schedule := ⟨s.hours.normalize, s.zone⟩

/-- Put `openings`, counted from midnight, in place of day `d`. -/
def setDay (s : Schedule) (d : Weekday) (openings : Hours) : Schedule :=
  ⟨s.hours.replace d openings, s.zone⟩

/-- Close day `d`. -/
def clearDay (s : Schedule) (d : Weekday) : Schedule := ⟨s.hours.clear d, s.zone⟩

/-! ### Storage -/

/-- The record as it is, without normalizing. -/
def toJson (s : Schedule) : Value :=
  .record [("intervals", s.hours.toJson), ("timezone_id", .ofText s.zone)]

def ofJson? (v : Value) : Option Schedule := do
  let fields ← v.fields? ["intervals", "timezone_id"]
  let hours ← fields.optional? "intervals" [] Hours.ofJson?
  let zone ← fields.optional? "timezone_id" "" Value.toText?
  some ⟨hours, zone⟩

def render (s : Schedule) : String := s.normalize.toJson.render

def parse (text : String) : Except Fault Schedule := (Value.load ofJson? text).map normalize

end Schedule

/-! ### Edits -/

inductive Edit where
  | normalize
  | setDay (d : Weekday) (openings : Hours)
  | clearDay (d : Weekday)
  | reload
deriving DecidableEq, Repr

namespace Edit

/-- Refused only if what was stored cannot be read. -/
def apply (s : Schedule) : Edit → Except Fault Schedule
  | normalize => .ok s.normalize
  | setDay d openings => .ok (s.setDay d openings)
  | clearDay d => .ok (s.clearDay d)
  | reload => Schedule.parse s.render

/-- All edits in order. -/
def run (s : Schedule) (edits : List Edit) : Except Fault Schedule := edits.foldlM apply s

end Edit

end OpeningHours
