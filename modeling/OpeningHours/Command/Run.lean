import OpeningHours.Clock
import OpeningHours.Command.Arguments
import OpeningHours.Hours.Basic
import OpeningHours.Schedule

/-!
What the command line does. A run reads, prints and may fail at any point; what it has printed before it
fails stays printed. The schedule is read before anything else is looked at.
-/

namespace OpeningHours.Command

/-- What can be read. -/
structure Inputs where
  /-- the standard input, unless it is no text -/
  stdin : Option String
  /-- the files that are there and hold text -/
  file? : String → Option String

inductive Failure where
  | unreadable (path : String)
  | badSchedule (path : String)
  | badRange (cause : Fault)
  | badTime (text : String)
  | badCatalog (path : String)
  | refused (fault : Fault)
deriving DecidableEq, Repr

namespace Failure

def message : Failure → String
  | unreadable path => if path = "-" then "failed to read stdin" else "failed to read " ++ path
  | badSchedule path => "failed to load working hours from " ++ path
  | badRange _ => "invalid range"
  | badTime text => "invalid time '" ++ text ++ "'"
  | badCatalog path => "failed to load timezones from " ++ path
  | refused fault => fault.message

/-- What lies behind a failure that does not tell it. -/
def cause? : Failure → Option String
  | badRange cause => some cause.message
  | _ => none

end Failure

namespace Inputs

/-- The text that a path stands for, if there is any. -/
def text? (path : String) (inputs : Inputs) : Option String :=
  if path = "-" then inputs.stdin else inputs.file? path

/-- The text of a source, and what can be read after it: the standard input is read only once. -/
def read (path : String) (inputs : Inputs) : Except Failure (String × Inputs) :=
  match inputs.text? path with
  | none => .error (.unreadable path)
  | some text => .ok (text, if path = "-" then { inputs with stdin := some "" } else inputs)

end Inputs

/-- How far a run has come. -/
structure Session where
  /-- what can still be read -/
  inputs : Inputs
  /-- the lines printed so far -/
  printed : List String

/-- A part of a run. A failure ends the run where it occurs. -/
abbrev Script : Type → Type := EStateM Failure Session

namespace Script

def print (line : String) : Script Unit :=
  modify fun session => { session with printed := session.printed ++ [line] }

def printAll (lines : List String) : Script Unit := lines.forM print

/-- The text of a source. -/
def read (path : String) : Script String := fun session =>
  match session.inputs.read path with
  | .ok (text, rest) => .ok text { session with inputs := rest }
  | .error failure => .error failure session

/-- A result, or the failure that its fault comes to. -/
def ofExcept {α : Type} (result : Except Fault α) (failure : Fault → Failure) : Script α :=
  match result with
  | .ok x => pure x
  | .error fault => throw (failure fault)

def schedule (path : String) : Script Schedule := do
  ofExcept (Schedule.parse (← read path)) fun _ => .badSchedule path

def catalog (path : String) : Script Catalog := do
  ofExcept (Catalog.parse (← read path)) fun _ => .badCatalog path

/-- All ranges, or the first that cannot be read. -/
def ranges (texts : List String) : Script Hours := ofExcept (texts.mapM Clock.range) .badRange

/-- Print a schedule after an edit. -/
def edit (s : Schedule) (e : Edit) : Script Unit := do
  print (← ofExcept (e.apply s) .refused).render

end Script

/-- The openings of a day, one a line. -/
def dayLines (s : Schedule) (d : Weekday) : List String :=
  ((s.hours.view d).shift d.midnight).map Interval.text

/-- A moment of this week or a later one. -/
def moment (t : Int) : String :=
  if week ≤ t then Clock.momentText t ++ " (next week)" else Clock.momentText t

/-- Whether hours are open, and until or from when. -/
def statusLines (h : Hours) (t : Int) : List String :=
  if h.isOpenAt t then
    match h.nextClose? t with
    | some u => ["open", "closes " ++ moment u]
    | none => ["open", "open around the clock"]
  else
    match h.nextOpen? t with
    | some u => ["closed", "opens " ++ moment u]
    | none => ["closed"]

namespace Request

/-- Where the schedule is read from. -/
def source : Request → String
  | normalize source => source
  | day source _ => source
  | setDay source _ _ => source
  | clearDay source _ => source
  | status source _ _ => source
  | timezone source _ => source

/-- All that is read, in order. -/
def sources : Request → List String
  | timezone source catalog => [source, catalog]
  | r => [r.source]

/-- What is done once the schedule is read. -/
def answer (s : Schedule) : Request → Script Unit
  | normalize _ => .edit s .normalize
  | day _ d => .printAll (dayLines s d)
  | setDay _ d texts => do .edit s (.setDay d (← .ranges texts))
  | clearDay _ d => .edit s (.clearDay d)
  | status _ d time =>
    match Clock.wallTime? time with
    | some (h, m) => .printAll (statusLines s.hours (d.moment h m 0))
    | none => throw (.badTime time)
  | timezone _ path => do
    let catalog ← .catalog path
    .print (← .ofExcept (catalog.resolve s.zone) .refused).label

def run (r : Request) : Script Unit := do
  r.answer (← .schedule r.source)

end Request

/-! ### Outcomes -/

/-- A failure that ended a run, and the lines that were printed before it. -/
structure Halt where
  failure : Failure
  printed : List String
deriving DecidableEq, Repr

namespace Halt

def message (h : Halt) : String := h.failure.message

def cause? (h : Halt) : Option String := h.failure.cause?

end Halt

inductive Outcome where
  | printed (lines : List String)
  /-- help was shown, in the words of whatever reads the arguments -/
  | helped
  | failed (halt : Halt)
  | misused
deriving DecidableEq, Repr

namespace Outcome

def exitCode : Outcome → UInt32
  | printed _ => 0
  | helped => 0
  | failed _ => 1
  | misused => 2

/-- The lines that a run puts on the standard output. -/
def lines : Outcome → List String
  | printed lines => lines
  | helped => []
  | failed halt => halt.printed
  | misused => []

/-- What goes to the standard output, apart from help. -/
def output (o : Outcome) : String := String.join (o.lines.map (· ++ "\n"))

end Outcome

def versionLine : String := "hours 0.2.0"

def Invocation.outcome (inputs : Inputs) : Invocation → Outcome
  | help => .helped
  | version => .printed [versionLine]
  | run request =>
    match request.run ⟨inputs, []⟩ with
    | .ok _ session => .printed session.printed
    | .error failure session => .failed ⟨failure, session.printed⟩

/-- The outcome of a whole run. -/
def outcome (args : List String) (inputs : Inputs) : Outcome :=
  match Invocation.ofArguments? args with
  | some invocation => invocation.outcome inputs
  | none => .misused

end OpeningHours.Command
