import MixfixLambda.Cli.Execution

/-!
# The program

The command line on the system that it runs on.
-/
namespace MixfixLambda.Cli

/-- What an error of the system is to a command. -/
def streamErrorOf : IO.Error → StreamError
  | .noFileOrDirectory .. => .notFound
  | .permissionDenied .. => .permissionDenied
  | .resourceVanished .. => .brokenPipe
  | .timeExpired .. => .timedOut
  | .interrupted .. => .interrupted
  | .inappropriateType _ code _ => if code = 20 then .notDirectory else .isDirectory
  | _ => .other

/-- The outcome of an action that may fail. -/
def attempt (action : IO α) : IO (Except StreamError α) :=
  try return .ok (← action)
  catch error => return .error (streamErrorOf error)

/-- Whether reports are coloured: if that is asked for, or the error stream is a terminal that can. -/
def wantsColour : IO Bool := do
  if (← IO.getEnv "FORCE_COLOR").any (!·.isEmpty) then return true
  let terminal ← IO.getEnv "TERM"
  let refused := (← IO.getEnv "NO_COLOR").isSome
  return (← (← IO.getStderr).isTty) && !refused && terminal.any (· != "dumb")

/-- The system as the surroundings of a command that began at a given time. -/
def systemHost (begin : Nat) (colour : Bool) : Host IO where
  readFile path := attempt do return (← IO.FS.readBinFile path).toList
  readInput := attempt do return (← (← IO.getStdin).read 1).toList
  write target bytes := attempt do
    let stream ← match target with
      | .output => IO.getStdout
      | .errors => IO.getStderr
    stream.write ⟨bytes.toArray⟩
    stream.flush
  elapsed := return (← IO.monoMsNow) - begin
  colour := colour

end MixfixLambda.Cli

open MixfixLambda.Cli in
def main (arguments : List String) : IO UInt32 := do
  let host := systemHost (← IO.monoMsNow) (← wantsColour)
  return (← host.perform arguments).toUInt32
