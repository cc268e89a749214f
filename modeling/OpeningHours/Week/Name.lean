import OpeningHours.Fault
import OpeningHours.Text
import OpeningHours.Week

/-!
Weekdays as text. A day is named by its number, counted from Monday, or by its English name, in full
or by its first three letters; the case of ASCII letters does not matter, nor do blanks around it.
-/

namespace OpeningHours.Weekday

def fullName : Weekday → String
  | 0 => "Monday"
  | 1 => "Tuesday"
  | 2 => "Wednesday"
  | 3 => "Thursday"
  | 4 => "Friday"
  | 5 => "Saturday"
  | 6 => "Sunday"

def shortName : Weekday → String
  | 0 => "Mon"
  | 1 => "Tue"
  | 2 => "Wed"
  | 3 => "Thu"
  | 4 => "Fri"
  | 5 => "Sat"
  | 6 => "Sun"

/-- One of the two names of day `d`, up to ASCII case. -/
def IsNamed (d : Weekday) (s : List Char) : Prop :=
  s.map Char.toLower = d.shortName.toList.map Char.toLower ∨
    s.map Char.toLower = d.fullName.toList.map Char.toLower

instance (d : Weekday) (s : List Char) : Decidable (d.IsNamed s) :=
  inferInstanceAs (Decidable (_ ∨ _))

def ofName? (s : List Char) : Option Weekday := all.find? (·.IsNamed s)

/-- Numbers of more than 64 bits count as no number at all. -/
def dayNumber? (s : List Char) : Option Nat := (Text.unsigned? s).filter (· < UInt64.size)

/-- Reads a day by number or by name. -/
def ofText (s : String) : Except Fault Weekday :=
  let w := Text.trim s.toList
  match dayNumber? w with
  | some n =>
    match ofIndex? n with
    | some d => .ok d
    | none => .error (.dayOutOfRange (String.ofList w))
  | none =>
    match ofName? w with
    | some d => .ok d
    | none => .error (.unknownDay (String.ofList w))

end OpeningHours.Weekday
