import OpeningHours.Json.Record

/-!
The timezones that hours can refer to. A catalog lists them; hours name theirs by its identifier.
Offsets from universal time only label a timezone, they move no hours.
-/

namespace OpeningHours

open Json Text

structure Timezone where
  id : String
  name : String
  /-- seconds ahead of universal time -/
  utcOffset : Int32
deriving DecidableEq, Repr

namespace Timezone

/-- A signed offset to the whole minute, without its seconds. -/
def offsetChars (offset : Int) : List Char :=
  let minutes := offset.natAbs / 60
  (if offset < 0 then '-' else '+') :: twoDigits (minutes / 60) ++ ':' :: twoDigits (minutes % 60)

def labelChars (z : Timezone) : List Char :=
  ['(', 'U', 'T', 'C'] ++ offsetChars z.utcOffset.toInt ++ [')', ' '] ++ z.name.toList

/-- What a list of choices shows, as in `(UTC+01:00) Berlin`. -/
def label (z : Timezone) : String := String.ofList z.labelChars

def toJson (z : Timezone) : Value :=
  .record [("id", .ofText z.id), ("name", .ofText z.name), ("utc_offset", .ofInt z.utcOffset.toInt)]

def ofJson? (v : Value) : Option Timezone := do
  let fields ← v.fields? ["id", "name", "utc_offset"]
  let id ← fields.required? "id" Value.toText?
  let name ← fields.required? "name" Value.toText?
  let offset ← fields.required? "utc_offset" Value.toInt32?
  some ⟨id, name, Int32.ofInt offset⟩

end Timezone

abbrev Catalog := List Timezone

namespace Catalog

/-- The first timezone listed under `id`. -/
def find? (c : Catalog) (id : String) : Option Timezone := List.find? (·.id = id) c

/-- The timezone that hours name; an empty name is a missing one. -/
def resolve (c : Catalog) (id : String) : Except Fault Timezone :=
  if id = "" then .error .missingZone
  else
    match c.find? id with
    | some z => .ok z
    | none => .error (.unknownZone id)

def toJson (c : Catalog) : Value := .ofList Timezone.toJson c

def ofJson? (v : Value) : Option Catalog := v.toList? Timezone.ofJson?

def render (c : Catalog) : String := c.toJson.render

def parse : String → Except Fault Catalog := Value.load ofJson?

end Catalog

end OpeningHours
