import OpeningHours.Week.Name

/-!
The arguments of the command line, read from left to right. The log level may stand anywhere, but not
twice on one side of the subcommand; after `--` everything is a plain value. A call for help or for
the version is answered where it stands: what is wrong before it counts, what follows it does not.
What the arguments ask for is settled before any file is read: without a request there is nothing to
run.
-/

namespace OpeningHours.Command

/-- What a subcommand is to do. A source is the path of a file, or `-` for the standard input. -/
inductive Request where
  | normalize (source : String)
  | day (source : String) (d : Weekday)
  | setDay (source : String) (d : Weekday) (ranges : List String)
  | clearDay (source : String) (d : Weekday)
  | status (source : String) (d : Weekday) (time : String)
  | timezone (source catalog : String)
deriving DecidableEq, Repr

inductive Invocation where
  | help
  | version
  | run (request : Request)
deriving DecidableEq, Repr

/-- Starts with a dash and is more than a dash. -/
def isOption (arg : String) : Bool :=
  match arg.toList with
  | '-' :: _ :: _ => true
  | _ => false

def logLevel : String := "--log-level"

/-- The log level with its value in one argument. -/
def isLogLevel (arg : String) : Bool := (logLevel.toList ++ ['=']).isPrefixOf arg.toList

/-- Short options may be run together, and the first one decides. -/
def isVersion (arg : String) : Bool := arg = "--version" || ['-', 'V'].isPrefixOf arg.toList

def isHelp (arg : String) : Bool := arg = "--help" || ['-', 'h'].isPrefixOf arg.toList

/-- What stands after a subcommand. -/
structure Operands where
  values : List String
  /-- whether help is called for after these values -/
  help : Bool
deriving DecidableEq, Repr

/-- The plain values among the arguments after a subcommand; `logged` tells whether the log level was
given already. -/
def operands? (logged : Bool) : List String → Option Operands
  | [] => some ⟨[], false⟩
  | arg :: args =>
    if arg = "--" then some ⟨args, false⟩
    else if arg = logLevel then
      match args with
      | value :: args => if logged || isOption value then none else operands? true args
      | [] => none
    else if isLogLevel arg then if logged then none else operands? true args
    else if isHelp arg then some ⟨[], true⟩
    else if isOption arg then none
    else (operands? logged args).map fun rest => { rest with values := arg :: rest.values }

/-- A path, which is never empty. -/
def path? (value : String) : Option String := if value = "" then none else some value

def weekday? (value : String) : Option Weekday := (Weekday.ofText value).toOption

/-- A subcommand with its values. -/
def Request.ofValues? (name : String) (values : List String) : Option Request :=
  match name, values with
  | "normalize", [file] => do some (.normalize (← path? file))
  | "day", [file, d] => do some (.day (← path? file) (← weekday? d))
  | "set-day", file :: d :: range :: ranges => do
    some (.setDay (← path? file) (← weekday? d) (range :: ranges))
  | "clear-day", [file, d] => do some (.clearDay (← path? file) (← weekday? d))
  | "status", [file, d, time] => do some (.status (← path? file) (← weekday? d) time)
  | "timezone", [file, catalog] => do some (.timezone (← path? file) (← path? catalog))
  | _, _ => none

/-- Values that a subcommand takes. -/
def sampleValues : String → List String
  | "normalize" => ["-"]
  | "day" | "clear-day" => ["-", "mon"]
  | "set-day" => ["-", "mon", "09:00-17:00"]
  | "status" => ["-", "mon", "09:00"]
  | "timezone" => ["-", "-"]
  | _ => []

/-- Whether a subcommand can begin with these values: further ones would complete a request. -/
def Request.begins (name : String) (values : List String) : Bool :=
  (ofValues? name (values ++ (sampleValues name).drop values.length)).isSome

/-- What a subcommand with its operands asks for. -/
def Request.invocation? (name : String) (operands : Operands) : Option Invocation :=
  if operands.help then if begins name operands.values then some .help else none
  else (ofValues? name operands.values).map .run

def subcommands : List String :=
  ["normalize", "day", "set-day", "clear-day", "status", "timezone", "help"]

/-- What may follow `help`: nothing, or one subcommand to tell about. -/
def isTopic : List String → Bool
  | [] => true
  | [name] => name ∈ subcommands
  | _ => false

/-- What the arguments ask for, from the first one on. -/
def invocation? (logged : Bool) : List String → Option Invocation
  | [] => none
  | arg :: args =>
    if arg = logLevel then
      match args with
      | value :: args => if logged || isOption value then none else invocation? true args
      | [] => none
    else if isLogLevel arg then if logged then none else invocation? true args
    else if isVersion arg then some .version
    else if isHelp arg then some .help
    else if arg = "help" then if isTopic args then some .help else none
    else (operands? false args).bind (Request.invocation? arg)

namespace Invocation

/-- What all arguments together ask for; none if they are misused. -/
def ofArguments? (args : List String) : Option Invocation := invocation? false args

end Invocation

end OpeningHours.Command
