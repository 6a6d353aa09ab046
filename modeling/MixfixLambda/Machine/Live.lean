import MixfixLambda.Machine.Run

/-!
# Runs that are fed from outside

Where the input is not known when a run begins, the run pauses before a step that would read more bytes
than there are, and goes on when they have been brought. What it has written by then can be taken away.
-/
namespace MixfixLambda

/-- Whether reading so many bytes sees the end of the listed outcomes. -/
def ReadEvent.runsOut : Nat → List ReadEvent → Bool
  | 0, _ => false
  | _ + 1, [] => true
  | count + 1, .byte _ :: reader => runsOut count reader
  | count + 1, .failure .interrupted :: reader => runsOut (count + 1) reader
  | _ + 1, .failure _ :: _ => false
  | _ + 1, .ending :: _ => false

/-- How far a run has got. -/
inductive Progress where
  | ended (result : RunResult)
  /-- The next step needs more input. -/
  | waiting
  /-- The steps that were allowed have been taken. -/
  | paused

/-- What a run has written and listed since it was last asked. -/
structure Written where
  output : List UInt8
  errors : List UInt8
  traced : List String

namespace Machine

/-- Whether the next step asks for bytes that the reader does not have yet. -/
def awaitsInput (m : Machine) : Bool :=
  match m.spine.top?, m.term with
  | some (.force .get _ _ [] _), .int (.ofNat position) =>
    !m.streams.exhausted
      && ReadEvent.runsOut (position + 1 - m.streams.cache.size) m.streams.reader
  | _, _ => false

/-- Takes steps until the run ends, needs input, or has taken as many as are allowed. -/
def advance : Nat → Machine → Progress × Machine
  | 0, m => (.paused, m)
  | allowed + 1, m =>
    if m.awaitsInput then (.waiting, m)
    else
      match m.step with
      | .running m => advance allowed m
      | .finished value m => (.ended (.value value), m)
      | .faulted fault m => (.ended (.fault fault), m)

/-- Brings more input. -/
def feed (m : Machine) (events : List ReadEvent) : Machine :=
  { m with streams := { m.streams with reader := m.streams.reader ++ events } }

/-- Takes away what has been written. -/
def drain (m : Machine) : Written × Machine :=
  (⟨m.streams.output.stored.toList, m.streams.errors.stored.toList, m.traced.toList⟩,
    { m with
      traced := #[]
      streams := { m.streams with
        output := { m.streams.output with stored := #[] }
        errors := { m.streams.errors with stored := #[] }
        calls := #[] } })

end Machine

end MixfixLambda
