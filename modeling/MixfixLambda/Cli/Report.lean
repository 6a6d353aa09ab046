import MixfixLambda.Cli.Host
import MixfixLambda.Program.Loading
import MixfixLambda.Report.Printer

/-!
# Reports of commands

Status lines and diagnostics on the error stream.
-/
namespace MixfixLambda.Cli

variable {m : Type → Type} [Monad m]

/-- A word that says what is going on, right-aligned, and what it is about. -/
def statusLine (word : String) (colour : Colour) (text : String) : StyledText :=
  StyledText.inStyle ⟨true, true, some colour⟩ ("".pushn ' ' (11 - word.length) ++ word)
    ++ [.text (" " ++ text ++ "\n")]

/-- Hundredths of a second, rounded from milliseconds. -/
def shownSeconds (milliseconds : Nat) : String :=
  let hundredths := (milliseconds + 5) / 10
  let rest := toString (hundredths % 100)
  toString (hundredths / 100) ++ "." ++ "".pushn '0' (2 - rest.length) ++ rest ++ "s"

namespace Host

def status (host : Host m) (word : String) (colour : Colour) (text : String) : m Unit :=
  host.note ((statusLine word colour text).render host.colour)

/-- Reports a failure; the answer is the exit status. -/
def report (host : Host m) (failure : Failure) (placed : Bool) : m Nat := do
  let diagnostic := failure.diagnostic
  host.note ((if placed then diagnostic else diagnostic.unplaced).renderBlock host.colour)
  return failure.exitStatus

/-- Reports warnings. -/
def warn (host : Host m) (placed : Bool) : List Diagnostic → m Unit
  | [] => return ()
  | diagnostic :: rest => do
    host.note ((if placed then diagnostic else diagnostic.unplaced).render host.colour)
    host.warn placed rest

/-- The exit status of a command that ends with writing something. -/
def statusOf (host : Host m) (written : Except StreamError Unit) (placed : Bool) : m Nat :=
  match written with
  | .ok () => return 0
  | .error error => host.report (.stream error) placed

end Host

end MixfixLambda.Cli
