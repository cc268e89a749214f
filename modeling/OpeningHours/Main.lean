import OpeningHours.Command.Run

/-!
The command line program `hours`: reads what the arguments name, and prints the outcome.
-/

namespace OpeningHours.Command

/-- All bytes of a stream. -/
partial def readBytes (stream : IO.FS.Stream) (found : ByteArray) : IO ByteArray := do
  let bytes ← stream.read 65536
  if bytes.isEmpty then return found else readBytes stream (found ++ bytes)

def readFile? (path : String) : IO (Option String) := do
  try
    return some (← IO.FS.readFile path)
  catch _ => return none

/-- What a request needs of the outside. -/
def Inputs.gather (request : Request) : IO Inputs := do
  let sources := request.sources
  let stdin ←
    if "-" ∈ sources then pure (String.fromUTF8? (← readBytes (← IO.getStdin) ByteArray.empty))
    else pure none
  let files ← (sources.filter (· ≠ "-")).mapM fun path => do return (path, ← readFile? path)
  return ⟨stdin, fun path => (files.lookup path).join⟩

def Halt.report (halt : Halt) : List String :=
  ("Error: " ++ halt.message) ::
    match halt.cause? with
    | some cause => ["", "Caused by:", "    " ++ cause]
    | none => []

end OpeningHours.Command

open OpeningHours Command

def main (args : List String) : IO UInt32 := do
  let inputs ←
    match Invocation.ofArguments? args with
    | some (.run request) => Inputs.gather request
    | _ => pure ⟨none, fun _ => none⟩
  let result := outcome args inputs
  IO.print result.output
  match result with
  | .failed halt => halt.report.forM IO.eprintln
  | .misused => IO.eprintln "error: the arguments are not understood; try --help"
  | .helped => IO.println ("subcommands: " ++ ", ".intercalate subcommands)
  | .printed _ => pure ()
  return result.exitCode
