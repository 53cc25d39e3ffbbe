import Std.Time.DateTime.Timestamp
import Triliteral.Command.Run

/-!
The program: a command line, the environment and the clock go in; two streams of text, files
and an exit code come out.
-/

namespace Triliteral.Main

def succeeds (action : IO Unit) : IO Bool := do
  try
    action
    return true
  catch _ => return false

/-- Whether a path leads to something, which need not be readable. -/
def isPresent (path : String) : IO Bool :=
  succeeds (discard (IO.FS.realPath path))

def contentOf (path : String) : IO (Option String) := do
  try
    return some (← IO.FS.readFile path)
  catch _ => return none

instance : Files IO where
  exists? := isPresent
  read? := contentOf
  write path content := succeeds (IO.FS.writeFile path content)
  createDirectories path := succeeds (IO.FS.createDirAll path)
  currentDirectory := return (← IO.currentDir).toString

/-- The variables of a list of texts `NAME=VALUE`, each ended by a null character. -/
def variablesOf (text : String) : List (String × String) :=
  (text.splitOn "\x00").filterMap fun entry =>
    match entry.splitOn "=" with
    | name :: value :: more => some (name, "=".intercalate (value :: more))
    | _ => none

def environment : IO Environment := do
  return ⟨variablesOf ((← contentOf "/proc/self/environ").getD "")⟩

def currentOccasion : IO Occasion := do
  return .ofEpoch (← Std.Time.Timestamp.now).toNanosecondsSinceUnixEpoch.val.toNat

def report (env : Environment) (outcome : Command.Outcome) : IO UInt32 := do
  let output ← IO.getStdout
  let problems ← IO.getStderr
  let colors := Command.Message.wantsColors env (← output.isTty)
  output.putStr (outcome.output colors)
  problems.putStr (outcome.problems colors)
  return outcome.exitCode.toUInt32

end Triliteral.Main

open Triliteral in
def main (arguments : List String) : IO UInt32 := do
  let env ← Main.environment
  match Command.Arguments.read env arguments with
  | .error refusal =>
    let stream ← if refusal.exitCode = 0 then IO.getStdout else IO.getStderr
    stream.putStr Command.Refusal.text
    return refusal.exitCode.toUInt32
  | .ok invocation =>
    let outcome : Command.Outcome ← invocation.run env (← Main.currentOccasion)
    Main.report env outcome
