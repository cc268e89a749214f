import OpeningHours.Fault
import OpeningHours.Json.Value

/-!
Records in JSON. A record is an object whose members are its fields, or an array of its fields in their
declared order, from which fields at the end may be missing. Members that are no fields are ignored,
whatever they hold, but every name must be text and no field may come twice. A missing field is an error
unless the record declares what it then holds.
-/

namespace OpeningHours.Json

namespace Value

/-! ### Simple values -/

def ofInt (k : Int) : Value := number (.ofInt k)

def ofText (s : String) : Value := string (CodePoint.ofText s.toList)

def ofList {α : Type} (item : α → Value) (xs : List α) : Value := array (xs.map item)

def toInt? : Value → Option Int
  | number n => n.toInt?
  | _ => none

/-- An integer from `low` to `high`. -/
def toIntBetween? (low high : Int) (v : Value) : Option Int :=
  v.toInt?.filter fun k => low ≤ k ∧ k ≤ high

/-- A signed integer of 32 bits. -/
def toInt32? (v : Value) : Option Int := v.toIntBetween? (-2147483648) 2147483647

/-- An unsigned integer of 8 bits. -/
def toUInt8? (v : Value) : Option Nat := (v.toIntBetween? 0 255).map Int.toNat

/-- An unsigned integer of 64 bits. -/
def toUInt64? (v : Value) : Option Nat := (v.toIntBetween? 0 18446744073709551615).map Int.toNat

def toBool? : Value → Option Bool
  | bool b => some b
  | _ => none

def toText? : Value → Option String
  | string content => (CodePoint.text? content).map String.ofList
  | _ => none

def toList? {α : Type} (item : Value → Option α) : Value → Option (List α)
  | array items => items.mapM item
  | _ => none

/-! ### Records -/

/-- The fields that are present, by name. -/
abbrev Fields := List (String × Value)

/-- Names as text. -/
def named? (members : List (List CodePoint × Value)) : Option Fields :=
  members.mapM fun m => (CodePoint.text? m.1).map fun s => (String.ofList s, m.2)

/-- The fields of a record that declares `names`. -/
def fields? (names : List String) : Value → Option Fields
  | array items => if items.length ≤ names.length then some (names.zip items) else none
  | object members => do
    let fields := (← named? members).filter fun m => m.1 ∈ names
    if (fields.map (·.1)).Nodup then some fields else none
  | _ => none

def record (fields : Fields) : Value :=
  object (fields.map fun f => (CodePoint.ofText f.1.toList, f.2))

namespace Fields

def required? {α : Type} (fields : Fields) (name : String) (read : Value → Option α) : Option α :=
  (fields.lookup name).bind read

/-- A field that holds `default` where it is missing. -/
def optional? {α : Type} (fields : Fields) (name : String) (default : α) (read : Value → Option α) :
    Option α :=
  match fields.lookup name with
  | none => some default
  | some v => read v

end Fields

/-- Reads a record from a text that holds nothing else. -/
def load {α : Type} (read : Value → Option α) (text : String) : Except Fault α :=
  match (parse? text).bind read with
  | some x => .ok x
  | none => .error .badRecord

end Value

end OpeningHours.Json
