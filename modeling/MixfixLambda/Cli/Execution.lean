import MixfixLambda.Cli.Arguments
import MixfixLambda.Cli.LineLoop
import MixfixLambda.Machine.Live
import MixfixLambda.Machine.Readback

/-!
# Commands

What every command does, and the exit status it comes to.
-/
namespace MixfixLambda.Cli

variable {m : Type → Type} [Monad m]

/-- Steps of a run between two looks outside. -/
def stepsPerRound : Nat :=
  65536

/-- Sends what a run has written on its way. -/
def Host.pass (host : Host m) (w : Written) : m (Except StreamError Unit) := do
  if !w.traced.isEmpty then host.note (String.join (w.traced.map (· ++ "\n")))
  let sent ← if w.output.isEmpty then pure (.ok ()) else host.write .output w.output
  match sent with
  | .error error => return .error error
  | .ok () => if w.errors.isEmpty then return .ok () else host.write .errors w.errors

/-- The bytes that the host has next, as outcomes of calls to read. -/
def Host.readEvents (host : Host m) : m (List ReadEvent) := do
  match ← host.readInput with
  | .error error => return [.failure error]
  | .ok [] => return [.ending]
  | .ok bytes => return bytes.map .byte

/-- Goes on with a run until it ends. The input comes from the host, and what is written goes to it. -/
@[specialize]
def Host.drive (host : Host m) : Nat → Machine → m (RunResult × Machine)
  | 0, machine => return (.outOfFuel, machine)
  | rounds + 1, machine => do
    let (progress, machine) := machine.advance stepsPerRound
    let (written, machine) := machine.drain
    match ← host.pass written with
    | .error error => return (.fault ⟨.stream error, none, []⟩, machine)
    | .ok () =>
      match progress with
      | .ended result => return (result, machine)
      | .paused => host.drive rounds machine
      | .waiting => host.drive rounds (machine.feed (← host.readEvents))

/-- Runs a program; the answer is the exit status. `reader` is the input that is known beforehand. -/
def Host.execute (host : Host m) (program : Program) (flags : RunFlags) (reader : List ReadEvent) :
    m Nat := do
  let options : Options := ⟨if flags.trace then stepsPerRound else 0, flags.backtrace, flags.test⟩
  let machine := Machine.start program.module.globals (.ofReader reader) .never options
  let (result, machine) ← host.drive unlimited (machine.load program.module.entry.term)
  match result with
  | .value value =>
    let printed ← match program.module.entry with
      | .expression _ => host.writeText .output (value.render machine.heap ++ "\n")
      | .main _ => pure (.ok ())
    if flags.profile then host.status "Profile" .cyan machine.stats.render
    host.statusOf printed (!flags.test)
  | .fault fault => host.report (.run program.file fault) (!flags.test)
  | .outOfFuel => host.report (.run program.file ⟨.interrupted, none, []⟩) (!flags.test)

/-- Loads a program and runs it. A program that was read from the standard input has no input. -/
def Host.run (host : Host m) (path : Option String) (flags : RunFlags) : m Nat := do
  let file := path.filter (· != "-")
  host.status "Running" .magenta (file.getD "standard input")
  let bytes ← match file with
    | some path => host.readFile path
    | none => host.readAll
  let loaded := match bytes with
    | .ok bytes => Program.ofBytes (file.getD "<stdin>") bytes
    | .error error => ⟨.error (.stream error), []⟩
  host.warn (!flags.test) loaded.warnings
  let status ← match loaded.result with
    | .error failure => host.report failure (!flags.test)
    | .ok program => host.execute program flags (if file.isSome then [] else [.ending])
  host.status "Finished" .green ("in " ++ shownSeconds (← host.elapsed))
  return status

/-- Prints a source as it was understood. -/
def Host.parse (host : Host m) (path : String) : m Nat := do
  match ← host.readFile path with
  | .error error => host.report (.stream error) true
  | .ok bytes =>
    match readSource bytes with
    | .error failure => host.report failure true
    | .ok text =>
      match MixfixLambda.parse text .module with
      | .error error => host.report (.parse ⟨path, text⟩ error) true
      | .ok tree =>
        let printed ← host.writeText .output (tree.render ++ "\n")
        host.statusOf printed true

/-- Does what some arguments ask for; the answer is the exit status. -/
def Host.perform (host : Host m) (arguments : List String) : m Nat := do
  match Request.ofArguments arguments with
  | .command (.run path flags) => host.run path flags
  | .command (.parse path) => host.parse path
  | .command .lexLines => LineLoop.lexing.run host
  | .command .parseLines => LineLoop.parsing.run host
  | .help =>
    let _ ← host.writeText .output usage
    return 0
  | .wrong =>
    host.note usage
    return 2

end MixfixLambda.Cli
