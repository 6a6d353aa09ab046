import MixfixLambda.Bind.Module
import MixfixLambda.Machine.Step

/-!
# Runs

A run takes steps until there is a value or a fault, and flushes both sinks. How many steps it may take
is given; running out of them is no result.
-/
namespace MixfixLambda

/-- What a run comes to. -/
inductive RunResult where
  | value (value : Value)
  | fault (fault : Fault)
  | outOfFuel
  deriving Repr

namespace Machine

/-- Steps until a value or a fault. -/
def steps : Nat → Machine → RunResult × Machine
  | 0, m => (.outOfFuel, m)
  | fuel + 1, m =>
    match m.step with
    | .running m => steps fuel m
    | .finished value m => (.value value, m)
    | .faulted fault m => (.fault fault, m)

/-- Ready to evaluate a term. Thunks, counters and streams stay as they are; the list of steps starts
anew. -/
def load (m : Machine) (term : Term) : Machine :=
  { m with
    term, locals := [], backtrace := .empty, spine := .empty, aborting := false, traced := #[] }

/-- Flushes the output, and then the errors if that worked. -/
def flushAll (s : Streams) : Except StreamError Unit × Streams :=
  match s.flush .output with
  | (.error error, s) => (.error error, s)
  | (.ok (), s) => s.flush .errors

/-- What is left of a run: everything is flushed, and a flush that fails is the result of a run that had
a value. -/
def conclude (result : RunResult) (m : Machine) : RunResult × Machine :=
  let (flushed, m) := m.onStreams flushAll
  let m := { m with spine := .empty, term := .int 0, locals := [] }
  match result, flushed with
  | .value _, .error error => (.fault ⟨.stream error, none, []⟩, m)
  | result, _ => (result, m)

/-- Evaluates a term to weak head normal form. -/
def run (fuel : Nat) (m : Machine) (term : Term) : RunResult × Machine :=
  let (result, m) := steps fuel (m.load term)
  conclude result m

end Machine

end MixfixLambda
