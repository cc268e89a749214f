import OpeningHours.Decimal.Shortest
import OpeningHours.Schedule

/-!
What a business tells about itself: its schedule and its place. Reading a profile keeps the hours as
they are stored, in normal form or not.
-/

namespace OpeningHours

open Json Decimal

/-- Degrees north and east. -/
structure Point where
  latitude : Float
  longitude : Float
deriving BEq, Repr

structure Place where
  address : String
  point : Option Point
deriving BEq, Repr

structure Profile where
  schedule : Schedule
  place : Place
deriving BEq, Repr

namespace Point

/-- Degrees are written plainly between `0.00001` and sixteen places. -/
def layout : Layout := ⟨4, 16⟩

def degrees (x : Float) : Value := if x.isFinite then .number (.ofFloat layout x) else .null

def degrees? : Value → Option Float
  | .number n => n.toFloat?
  | _ => none

def toJson (p : Point) : Value := .record [("lat", degrees p.latitude), ("lon", degrees p.longitude)]

def ofJson? (v : Value) : Option Point := do
  let fields ← v.fields? ["lat", "lon"]
  let latitude ← fields.required? "lat" degrees?
  let longitude ← fields.required? "lon" degrees?
  some ⟨latitude, longitude⟩

end Point

namespace Place

def empty : Place := ⟨"", none⟩

def isSet (p : Place) : Bool := p.address ≠ ""

/-- A point, or `null` in place of one. -/
def point? : Value → Option (Option Point)
  | .null => some none
  | v => (Point.ofJson? v).map some

def toJson (p : Place) : Value :=
  .record [("address", .ofText p.address), ("point", (p.point.map Point.toJson).getD .null)]

def ofJson? (v : Value) : Option Place := do
  let fields ← v.fields? ["address", "point"]
  let address ← fields.required? "address" Value.toText?
  let point ← fields.optional? "point" none point?
  some ⟨address, point⟩

end Place

namespace Profile

def isSet (p : Profile) : Bool := p.schedule.isSet || p.place.isSet

def toJson (p : Profile) : Value :=
  .record [("hours", p.schedule.toJson), ("location", p.place.toJson)]

def ofJson? (v : Value) : Option Profile := do
  let fields ← v.fields? ["hours", "location"]
  let schedule ← fields.optional? "hours" .empty Schedule.ofJson?
  let place ← fields.optional? "location" .empty Place.ofJson?
  some ⟨schedule, place⟩

def render (p : Profile) : String := p.toJson.render

def parse : String → Except Fault Profile := Value.load ofJson?

end Profile

end OpeningHours
