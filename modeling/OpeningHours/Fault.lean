/-!
Why an input is refused. Each case keeps the text it is about, and `message` is the only place where
the wording is decided. An answer is a value or a fault.
-/

namespace OpeningHours

inductive Fault where
  /-- a number that is not that of a weekday -/
  | dayOutOfRange (text : String)
  /-- neither a number nor the name of a weekday -/
  | unknownDay (text : String)
  /-- not a time of day -/
  | badClock (text : String)
  /-- not two times with a dash between them -/
  | notARange (text : String)
  /-- a range that does not end after its start -/
  | reversedRange (text : String)
  | missingZone
  | unknownZone (id : String)
  /-- a text that is not a stored record -/
  | badRecord
deriving DecidableEq, Repr

namespace Fault

private def quoted (text : String) : String := "'" ++ text ++ "'"

def message : Fault → String
  | dayOutOfRange w => "Invalid day: " ++ quoted w ++ " is not in 0..=6"
  | unknownDay w => "Invalid day: " ++ quoted w
  | badClock s => "Invalid time: " ++ quoted s
  | notARange s => "Invalid time: " ++ quoted s ++ " is not a HH:MM-HH:MM range"
  | reversedRange s => "Invalid time: " ++ quoted s ++ " ends before it starts"
  | missingZone => "Missing timezone"
  | unknownZone id => "Unknown timezone: " ++ quoted id
  | badRecord => "Invalid working hours JSON"

/-! ### Answers -/

section Answer

variable {α : Type} {answer : Except Fault α} {Value : α → Prop} {Wrong : Fault → Prop}

/-- If one of several conditions always holds, and each of them brings about an answer of its own, then every
answer is given under its condition only. -/
theorem answer_iff (hvalue : ∀ a, Value a → answer = .ok a) (hwrong : ∀ fault, Wrong fault → answer = .error fault)
    (hcases : (∃ a, Value a) ∨ ∃ fault, Wrong fault) :
    (∀ a, answer = .ok a ↔ Value a) ∧ ∀ fault, answer = .error fault ↔ Wrong fault := by
  rcases hcases with ⟨b, hb⟩ | ⟨wrong, hw⟩
  · have hanswer := hvalue b hb
    refine ⟨fun a => ⟨fun ha => ?_, hvalue a⟩, fun fault => ⟨fun hf => ?_, hwrong fault⟩⟩
    · obtain rfl : b = a := Except.ok.inj (hanswer.symm.trans ha)
      exact hb
    · cases hanswer.symm.trans hf
  · have hanswer := hwrong wrong hw
    refine ⟨fun a => ⟨fun ha => ?_, hvalue a⟩, fun fault => ⟨fun hf => ?_, hwrong fault⟩⟩
    · cases hanswer.symm.trans ha
    · obtain rfl : wrong = fault := Except.error.inj (hanswer.symm.trans hf)
      exact hw

end Answer

end Fault

end OpeningHours
