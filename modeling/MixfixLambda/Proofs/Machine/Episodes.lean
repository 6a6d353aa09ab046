import MixfixLambda.Machine.Run
import MixfixLambda.Proofs.Machine.Streams

/-!
# What happens in a run

A run is accompanied by the list of what happens in it: calls on the streams with their outcomes, calls of
`put` that succeed and calls of `abort`. Each step is one of a few episodes: it performs `put` or `get`,
calls `abort`, flushes the errors when the argument of `abort` has its value, or leaves the streams alone.
-/
namespace MixfixLambda

/-- What happens in a run. -/
inductive Event where
  | stream (outcome : Outcome)
  /-- A call of `put` has succeeded. -/
  | put (value : Int)
  /-- `abort` is called. -/
  | abort
  deriving DecidableEq, Repr

namespace Event

def outcome? : Event → Option Outcome
  | .stream outcome => some outcome
  | _ => none

def put? : Event → Option Int
  | .put value => some value
  | _ => none

end Event

/-- The calls on streams among some events. -/
def outcomes (events : List Event) : List Outcome :=
  events.filterMap Event.outcome?

/-- The arguments of the calls of `put` among some events. -/
def puts (events : List Event) : List Int :=
  events.filterMap Event.put?

namespace StepResult

def machine : StepResult → Machine
  | .running m | .finished _ m | .faulted _ m => m

def isRunning : StepResult → Bool
  | .running _ => true
  | _ => false

theorem not_running {result : StepResult} {P : Prop} (stops : result.isRunning = false)
    (running : result.isRunning = true) : P :=
  absurd (stops.symm.trans running) Bool.false_ne_true

end StepResult

namespace Machine

/-- The integer that `put` has got as its argument. -/
def putting? (m : Machine) : Option Int :=
  match m.term, m.spine.top? with
  | .int value, some (.force .put _ [] [] _) => some value
  | _, _ => none

/-- The machine works on a call of `abort`. -/
def callsAbort (m : Machine) : Bool :=
  match m.term with
  | .builtin .abort _ => 0 < m.spine.available
  | _ => false

/-- What happens in a step: `abort` is called, then the streams are, and `put` succeeds if the run goes on. -/
def happens (m : Machine) (result : StepResult) : List Event :=
  (if !m.isInterrupted && m.callsAbort then [.abort] else []) ++
    (m.streams.fresh result.machine.streams).map .stream ++
    (if result.isRunning then m.putting?.toList.map .put else [])

/-- What happens in so many steps. -/
def events : Nat → Machine → List Event
  | 0, _ => []
  | fuel + 1, m =>
    m.tick.happens m.step ++
      match m.step with
      | .running next => events fuel next
      | _ => []

/-- Where `put` writes to. -/
def target (aborting : Bool) : Target :=
  if aborting then .errors else .output

/-- The events of one step, from a machine that is aborting or not to one that is or is not, and whether the
run goes on. -/
inductive Episode (aborting : Bool) : List Event → Bool → Bool → Prop
  | silent (runs : Bool) : Episode aborting [] aborting runs
  | put (retries : Nat) {value : Int} (byte : 0 ≤ value ∧ value < 256) :
      Episode aborting ((attempts (.write (target aborting) (UInt8.ofNat value.toNat)) retries none).map .stream ++
        [.put value]) aborting true
  | putFails (retries : Nat) (byte : UInt8) (error : StreamError) :
      Episode aborting ((attempts (.write (target aborting) byte) retries (some error)).map .stream) aborting false
  | get {log : List Outcome} (fetches : Streams.Fetches log none) :
      Episode aborting (log.map .stream) aborting true
  | getFails {log : List Outcome} {error : StreamError} (fetches : Streams.Fetches log (some error)) :
      Episode aborting (log.map .stream) aborting false
  | abort (failure : Option StreamError) (runs : Bool) :
      Episode aborting [.abort, .stream ⟨.flush .output, failure⟩] true runs
  | release (failure : Option StreamError) :
      Episode aborting [.stream ⟨.flush .errors, failure⟩] aborting false

/-- A step from the machine is an episode, and its calls on the streams are what is recorded. -/
structure Performs (m : Machine) (result : StepResult) : Prop where
  episode : Episode m.aborting (m.happens result) result.machine.aborting result.isRunning
  logs : m.streams.Logs (outcomes (m.happens result)) result.machine.streams

@[simp]
theorem outcomes_nil : outcomes [] = [] :=
  rfl

@[simp]
theorem outcomes_append (events events' : List Event) :
    outcomes (events ++ events') = outcomes events ++ outcomes events' :=
  List.filterMap_append

@[simp]
theorem puts_append (events events' : List Event) : puts (events ++ events') = puts events ++ puts events' :=
  List.filterMap_append

@[simp]
theorem puts_stream (log : List Outcome) : puts (log.map .stream) = [] := by
  simp [puts, List.filterMap_map, Function.comp_def, Event.put?]

@[simp]
theorem outcomes_stream (log : List Outcome) : outcomes (log.map .stream) = log := by
  simp [outcomes, List.filterMap_map, Function.comp_def, Event.outcome?]

variable {m : Machine} {result : StepResult} {log : List Outcome}

/-- Neither the streams nor the mode of the machine changes. -/
structure Quiet (m : Machine) (result : StepResult) : Prop where
  streams : result.machine.streams = m.streams
  aborting : result.machine.aborting = m.aborting

/-- A step that neither calls `abort` nor performs `put` is what it does to the streams. -/
theorem performs_plain (logs : m.streams.Logs log result.machine.streams)
    (noAbort : m.isInterrupted = true ∨ m.callsAbort = false)
    (noPut : result.isRunning = true → m.putting? = none)
    (episode : Episode m.aborting (log.map .stream) result.machine.aborting result.isRunning) :
    m.Performs result := by
  have before : (if !m.isInterrupted && m.callsAbort then [Event.abort] else []) = [] := by
    rcases noAbort with interrupted | other
    · simp [interrupted]
    · simp [other]
  have after : (if result.isRunning then m.putting?.toList.map Event.put else []) = [] := by
    split
    · next runs => simp [noPut runs]
    · rfl
  have plain : m.happens result = log.map .stream := by
    rw [happens, before, after, logs.fresh_eq, List.nil_append, List.append_nil]
  refine ⟨plain ▸ episode, ?_⟩
  rw [plain, outcomes_stream]
  exact logs

theorem Quiet.performs (quiet : m.Quiet result) (noAbort : m.isInterrupted = true ∨ m.callsAbort = false)
    (noPut : result.isRunning = true → m.putting? = none) : m.Performs result := by
  have logs : m.streams.Logs [] result.machine.streams := by
    rw [quiet.streams]
    exact .refl _
  refine performs_plain logs noAbort noPut ?_
  rw [quiet.aborting]
  exact .silent _

theorem enter_quiet {m' : Machine} (streams : m'.streams = m.streams) (aborting : m'.aborting = m.aborting)
    (thunk : Nat) : m.Quiet (m'.enter thunk) := by
  unfold enter
  dsimp only
  split
  · exact ⟨streams, aborting⟩
  · exact ⟨streams, aborting⟩
  · exact ⟨streams, aborting⟩

theorem apply_quiet (m : Machine) (left right : Term) :
    m.Quiet (match m.delay right with
      | (.ok thunk, m) => .running { m with spine := m.spine.push (.arg thunk), term := left }
      | (.error (fault, tag), m) => m.fail (.internal fault) (some tag)) := by
  unfold delay
  cases right with
  | var depth tag =>
    dsimp only
    cases m.locals[depth]? with
    | some thunk => exact ⟨rfl, rfl⟩
    | none => exact ⟨rfl, rfl⟩
  | _ => exact ⟨rfl, rfl⟩

theorem constant_quiet {m' : Machine} (streams : m'.streams = m.streams) (aborting : m'.aborting = m.aborting)
    (index : Nat) (term : Term) :
    m.Quiet ((m'.constant index term).2.enter (m'.constant index term).1) := by
  unfold constant
  split
  · exact enter_quiet streams aborting _
  · apply enter_quiet
    · exact streams
    · exact aborting

theorem partialApplication_quiet (m : Machine) (operation : Builtin) (tag : Tag) (available : Nat) :
    m.Quiet (m.partialApplication operation tag available) := by
  unfold partialApplication
  split
  · dsimp only
    split
    · exact ⟨rfl, rfl⟩
    · exact ⟨rfl, rfl⟩
  · exact ⟨rfl, rfl⟩
  · exact ⟨rfl, rfl⟩

theorem unfold_quiet (m : Machine) (value : Int) : m.Quiet (.running (m.unfold value)) := by
  unfold unfold
  dsimp only
  split
  · exact ⟨rfl, rfl⟩
  · exact ⟨rfl, rfl⟩

/-- What is made of the answer of an operation. -/
def answered (tag : Tag) : Except FaultCause Term × Machine → StepResult
  | (.ok term, m) => .running { m with term, locals := [] }
  | (.error cause, m) => m.fail cause (some tag)

/-- What is made of the answer of the streams. -/
def talked (m : Machine) (tag : Tag) (term : α → Term) : Except StreamError α × Streams → StepResult
  | (.ok answer, streams) => .running { m with streams, term := term answer, locals := [] }
  | (.error error, streams) => { m with streams }.fail (.stream error) (some tag)

section Operation

variable {m' : Machine} {value : Int} {operation : Builtin} {tag : Tag} {values : List Int}
  {backtrace : Backtrace}

theorem answered_put (byte : 0 ≤ value ∧ value < 256) : answered tag (m'.primitive .put [value]) =
    m'.talked tag (fun _ => identity) (m'.streams.write (target m'.aborting) (UInt8.ofNat value.toNat)) := by
  simp only [primitive, if_pos byte, onStreams, target]
  cases m'.streams.write _ _ with
  | mk answer after => cases answer <;> rfl

theorem answered_get : answered tag (m'.primitive .get [value]) =
    m'.talked tag .int (m'.streams.get value) := by
  simp only [primitive, onStreams]
  cases m'.streams.get value with
  | mk answer after => cases answer <;> rfl

theorem put_performs (focus : m.term = .int value)
    (top : m.spine.top? = some (.force .put tag [] [] backtrace)) (streams : m'.streams = m.streams)
    (aborting : m'.aborting = m.aborting) :
    m.Performs (answered tag (m'.primitive .put [value])) := by
  have noAbort : m.callsAbort = false := by rw [callsAbort, focus]
  have here : m.putting? = some value := by rw [putting?, focus, top]
  by_cases byte : 0 ≤ value ∧ value < 256
  · obtain ⟨retries, logs⟩ := Streams.write_logs (target m.aborting) (UInt8.ofNat value.toNat) m.streams
    rw [answered_put byte, streams, aborting]
    cases answer : m.streams.write (target m.aborting) (UInt8.ofNat value.toNat) with
    | mk result after =>
      rw [answer] at logs
      cases result with
      | ok _ =>
        have events : m.happens (.running { m' with streams := after, term := identity, locals := [] }) =
            (attempts (.write (target m.aborting) (UInt8.ofNat value.toNat)) retries none).map .stream ++
              [.put value] := by
          simp [happens, noAbort, here, StepResult.isRunning, StepResult.machine, logs.fresh_eq, failure?]
        refine ⟨?_, ?_⟩
        · rw [talked, events]
          exact aborting ▸ .put retries byte
        · have quiet : outcomes [Event.put value] = [] := rfl
          rw [talked, events, outcomes_append, outcomes_stream, quiet, List.append_nil]
          exact logs
      | error error =>
        exact performs_plain logs (.inr noAbort) (StepResult.not_running rfl) (aborting ▸ .putFails retries _ error)
  · have refused : m'.primitive .put [value] = (.error (.byteRange value), m') := by
      rw [primitive, if_neg byte]
    rw [refused]
    exact Quiet.performs ⟨streams, aborting⟩ (.inr noAbort) (StepResult.not_running rfl)

theorem get_performs (focus : m.term = .int value)
    (top : m.spine.top? = some (.force .get tag [] [] backtrace)) (streams : m'.streams = m.streams)
    (aborting : m'.aborting = m.aborting) : m.Performs (answered tag (m'.primitive .get [value])) := by
  have noAbort : m.callsAbort = false := by rw [callsAbort, focus]
  have noPut : m.putting? = none := by rw [putting?, focus, top]
  obtain ⟨log, logs, shape⟩ := Streams.get_logs value m.streams
  rw [answered_get, streams]
  cases answer : m.streams.get value with
  | mk result after =>
    rw [answer] at logs shape
    cases result with
    | ok n => exact performs_plain logs (.inr noAbort) (fun _ => noPut) (aborting ▸ .get shape)
    | error error => exact performs_plain logs (.inr noAbort) (StepResult.not_running rfl) (aborting ▸ .getFails shape)

/-- An operation gets the value of its last argument. -/
theorem primitive_performs (focus : m.term = .int value)
    (top : m.spine.top? = some (.force operation tag values [] backtrace)) (streams : m'.streams = m.streams)
    (aborting : m'.aborting = m.aborting) :
    m.Performs (answered tag (m'.primitive operation (values ++ [value]))) := by
  have noAbort : m.callsAbort = false := by rw [callsAbort, focus]
  generalize given : values ++ [value] = all
  unfold primitive
  split
  · next last =>
    obtain ⟨rfl, rfl⟩ : values = [] ∧ value = last := by simpa [List.append_eq_singleton_iff] using given
    exact put_performs focus top streams aborting
  · next last =>
    obtain ⟨rfl, rfl⟩ : values = [] ∧ value = last := by simpa [List.append_eq_singleton_iff] using given
    exact get_performs focus top streams aborting
  · exact Quiet.performs ⟨streams, aborting⟩ (.inr noAbort) (StepResult.not_running rfl)
  · exact Quiet.performs ⟨streams, aborting⟩ (.inr noAbort) (StepResult.not_running rfl)
  · exact Quiet.performs ⟨streams, aborting⟩ (.inr noAbort) (StepResult.not_running rfl)
  · next a b _ _ _ =>
    have both : values ++ [value] = [a] ++ [b] := given
    have parts := List.append_inj' both rfl
    obtain ⟨rfl, rfl⟩ : values = [a] ∧ value = b := ⟨parts.1, List.singleton_inj.mp parts.2⟩
    have noPut : m.putting? = none := by
      rw [putting?, focus, top]
      cases operation <;> rfl
    cases operation.binary a value with
    | ok term => exact Quiet.performs ⟨streams, aborting⟩ (.inr noAbort) fun _ => noPut
    | error cause => exact Quiet.performs ⟨streams, aborting⟩ (.inr noAbort) (StepResult.not_running rfl)
  · exact Quiet.performs ⟨streams, aborting⟩ (.inr noAbort) (StepResult.not_running rfl)

end Operation

/-- The machine holds a value that takes no argument. -/
theorem settle_performs (noAbort : m.callsAbort = false) : m.Performs m.settle := by
  unfold settle
  split
  · exact Quiet.performs ⟨rfl, rfl⟩ (.inr noAbort) (StepResult.not_running rfl)
  · exact Quiet.performs ⟨rfl, rfl⟩ (.inr noAbort) (StepResult.not_running rfl)
  · next thunk top =>
    refine Quiet.performs ⟨rfl, rfl⟩ (.inr noAbort) fun _ => ?_
    rw [putting?, top]
    cases m.term <;> rfl
  · exact performs_plain (Streams.flush_logs .errors m.streams) (.inr noAbort) (StepResult.not_running rfl) (.release _)
  · next operation tag values pending backtrace strict top =>
    dsimp only
    split
    · next value focus =>
      cases pending with
      | nil => exact primitive_performs focus top rfl rfl
      | cons next pending =>
        refine Quiet.performs ?_ (.inr noAbort) fun _ => ?_
        · apply enter_quiet <;> rfl
        · rw [putting?, focus, top]
          cases operation <;> cases values <;> rfl
    · exact Quiet.performs ⟨rfl, rfl⟩ (.inr noAbort) (StepResult.not_running rfl)

/-- An operation has all of its arguments. -/
theorem call_performs {m' : Machine} {operation : Builtin} {tag : Tag} (arguments : List Nat)
    (focus : m.term = .builtin operation tag) (awake : m.isInterrupted = false)
    (enough : operation.arity ≤ m.spine.available) (streams : m'.streams = m.streams)
    (aborting : m'.aborting = m.aborting) : m.Performs (m'.call operation tag arguments) := by
  have noPut : m.putting? = none := by rw [putting?, focus]
  by_cases aborts : operation = .abort
  · subst aborts
    have calls : m.callsAbort = true := by
      rw [callsAbort, focus]
      exact decide_eq_true enough
    let flushed : Machine := { m' with streams := (m.streams.flush .output).2, aborting := true }
    have quiet : flushed.Quiet (m'.call .abort tag arguments) := by
      unfold call
      rw [if_pos rfl, onStreams, streams]
      cases arguments with
      | nil => exact ⟨rfl, rfl⟩
      | cons first pending => apply enter_quiet <;> rfl
    have logs := Streams.flush_logs .output m.streams
    have events : m.happens (m'.call .abort tag arguments) =
        [.abort, .stream ⟨.flush .output, failure? (m.streams.flush .output).1⟩] := by
      simp [happens, awake, calls, noPut, quiet.streams, flushed, logs.fresh_eq]
    refine ⟨?_, ?_⟩
    · rw [events, quiet.aborting]
      exact .abort _ _
    · rw [events, quiet.streams]
      exact logs
  · have noAbort : m.callsAbort = false := by
      rw [callsAbort, focus]
      cases operation with
      | abort => exact absurd rfl aborts
      | _ => rfl
    refine Quiet.performs ?_ (.inr noAbort) fun _ => noPut
    unfold call
    rw [if_neg aborts]
    cases arguments with
    | nil => exact ⟨streams, aborting⟩
    | cons first pending =>
      apply enter_quiet
      · exact streams
      · exact aborting

/-- What a reduction does with the streams. -/
theorem reduce_performs (awake : m.isInterrupted = false) : m.Performs m.reduce := by
  unfold reduce
  split
  · next left right focus =>
    refine (apply_quiet m left right).performs (.inr (by rw [callsAbort, focus])) fun _ => ?_
    rw [putting?, focus]
  · next tag body focus =>
    have noAbort : m.callsAbort = false := by rw [callsAbort, focus]
    split
    · exact Quiet.performs ⟨rfl, rfl⟩ (.inr noAbort) fun _ => by rw [putting?, focus]
    · exact settle_performs noAbort
  · next depth tag focus =>
    have noAbort : m.callsAbort = false := by rw [callsAbort, focus]
    have noPut : m.putting? = none := by rw [putting?, focus]
    split
    · exact (enter_quiet rfl rfl _).performs (.inr noAbort) fun _ => noPut
    · exact Quiet.performs ⟨rfl, rfl⟩ (.inr noAbort) (StepResult.not_running rfl)
  · next index tag focus =>
    have noAbort : m.callsAbort = false := by rw [callsAbort, focus]
    have noPut : m.putting? = none := by rw [putting?, focus]
    dsimp only
    split
    · exact Quiet.performs ⟨rfl, rfl⟩ (.inr noAbort) (StepResult.not_running rfl)
    · split
      · exact Quiet.performs ⟨rfl, rfl⟩ (.inr noAbort) fun _ => noPut
      · refine Quiet.performs ?_ (.inr noAbort) fun _ => noPut
        apply constant_quiet <;> rfl
  · next value focus =>
    have noAbort : m.callsAbort = false := by rw [callsAbort, focus]
    split
    · next thunk top =>
      refine (unfold_quiet m value).performs (.inr noAbort) fun _ => ?_
      rw [putting?, focus, top]
    · exact settle_performs noAbort
  · next operation tag focus =>
    dsimp only
    split
    · next short =>
      refine (partialApplication_quiet m operation tag _).performs (.inr ?_) fun _ => ?_
      · rw [callsAbort, focus]
        cases operation with
        | abort => simpa [Builtin.arity] using short
        | _ => rfl
      · rw [putting?, focus]
    · next enough => exact call_performs _ focus awake (by omega) rfl rfl

theorem tick_streams (m : Machine) : m.tick.streams = m.streams := by
  unfold tick
  dsimp only
  split <;> rfl

theorem tick_aborting (m : Machine) : m.tick.aborting = m.aborting := by
  unfold tick
  dsimp only
  split <;> rfl

/-- Each step of a machine is an episode. -/
theorem step_performs (m : Machine) : m.tick.Performs m.step := by
  unfold step
  dsimp only
  split
  · next interrupted => exact Quiet.performs ⟨rfl, rfl⟩ (.inl interrupted) (StepResult.not_running rfl)
  · next awake => exact reduce_performs (by simpa using awake)

/-- The events of some steps, from a machine that is aborting or not. -/
inductive Follows : Bool → List Event → Prop
  | pause (aborting : Bool) : Follows aborting []
  | last {aborting after : Bool} {events : List Event} (episode : Episode aborting events after false) :
      Follows aborting events
  | next {aborting after : Bool} {events rest : List Event} (episode : Episode aborting events after true)
      (follow : Follows after rest) : Follows aborting (events ++ rest)

theorem events_follow (fuel : Nat) (m : Machine) : Follows m.aborting (events fuel m) := by
  induction fuel generalizing m with
  | zero => exact .pause _
  | succ fuel ih =>
    have performs := step_performs m
    have episode := performs.episode
    rw [tick_aborting] at episode
    rw [events]
    cases here : m.step with
    | running next =>
      rw [here] at episode
      exact .next episode (ih next)
    | finished value after =>
      rw [here] at episode
      rw [List.append_nil]
      exact .last episode
    | faulted fault after =>
      rw [here] at episode
      rw [List.append_nil]
      exact .last episode

theorem events_logs (fuel : Nat) (m : Machine) :
    m.streams.Logs (outcomes (events fuel m)) (steps fuel m).2.streams := by
  induction fuel generalizing m with
  | zero => exact .refl _
  | succ fuel ih =>
    have logs := (step_performs m).logs
    rw [tick_streams] at logs
    rw [events, steps, outcomes_append]
    cases here : m.step with
    | running next =>
      rw [here] at logs
      exact logs.trans (ih next)
    | finished value after =>
      rw [here] at logs
      rw [outcomes_nil, List.append_nil]
      exact logs
    | faulted fault after =>
      rw [here] at logs
      rw [outcomes_nil, List.append_nil]
      exact logs

end Machine

end MixfixLambda
