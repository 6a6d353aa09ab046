import Mathlib.Data.List.Forall2
import MixfixLambda.Machine.Run
import MixfixLambda.Proofs.Machine.Change

/-!
# Options only change what is reported

Two runs that differ in their options go through the same steps. Everything that a run does is that of the run
that tells all it knows: the options decide which steps are listed, and what of the place of a fault and of the
references that led to it is shown.
-/
namespace MixfixLambda

/-- A fault as it is reported under some options: without its place in a test, and with the references that led to
it only on demand. -/
def Fault.shown (o : Options) (f : Fault) : Fault :=
  { f with
    span := if o.test then none else f.span
    backtrace := if o.backtrace then f.backtrace else [] }

/-- A result as it is reported under some options. -/
def RunResult.shown (o : Options) : RunResult → RunResult
  | .value v => .value v
  | .fault f => .fault (f.shown o)
  | .outOfFuel => .outOfFuel

/-- The results of one run under two choices of options: the same value, or one fault as it is reported under
each of them. -/
inductive RunResult.Alike (o o' : Options) : RunResult → RunResult → Prop
  | value (v : Value) : Alike o o' (.value v) (.value v)
  | fault (f : Fault) : Alike o o' (.fault (f.shown o)) (.fault (f.shown o'))
  | outOfFuel : Alike o o' .outOfFuel .outOfFuel

theorem RunResult.shown_alike (o o' : Options) (result : RunResult) : Alike o o' (result.shown o) (result.shown o') := by
  cases result with
  | value v => exact .value v
  | fault f => exact .fault f
  | outOfFuel => exact .outOfFuel

/-- The options under which faults tell all that is known of them. -/
def Options.telling : Options :=
  ⟨0, true, false⟩

/-- Other options, and another list of steps. -/
def Change.relist (o : Options) (lines : Array String) : Change :=
  ⟨id, id, fun _ => o, fun _ => lines⟩

theorem Change.relist_reports (o : Options) (lines : Array String) :
    (relist o lines).Reports .telling (Fault.shown o) := by
  intro m cause tag telling
  simp only [Machine.faultAt, Machine.changed, relist, Fault.shown, telling, Options.telling, if_true,
    Bool.false_eq_true, if_false]

namespace Machine

open Change

variable {m : Machine} {o : Options} {lines : Array String}

/-- Runs one after the other on one machine: what they come to, and the machine they leave. -/
def runs : List (Nat × Term) → Machine → List RunResult × Machine
  | [], m => ([], m)
  | (fuel, entry) :: rest, m =>
    let (result, m) := m.run fuel entry
    let (results, m) := runs rest m
    (result :: results, m)

/-- Which steps are listed depends on the options, and nothing else in a tick. -/
theorem tick_relist (o : Options) (lines : Array String) (m : Machine) :
    ∃ lines', (m.changed (relist o lines)).tick = m.tick.changed (relist o lines') := by
  refine ⟨(m.changed (relist o lines)).tick.traced, ?_⟩
  unfold tick
  dsimp only
  split <;> split <;> rfl

/-- A step under other options is the same step. -/
theorem step_relist (telling : m.options = .telling) (o : Options) (lines : Array String) :
    ∃ lines', (m.changed (relist o lines)).step = m.step.changed (relist o lines') (Fault.shown o) := by
  obtain ⟨lines', ticked⟩ := m.tick_relist o lines
  have own := m.tick_keeps.2.2.trans telling
  refine ⟨lines', ?_⟩
  unfold step
  dsimp only
  rw [ticked, show (m.tick.changed (relist o lines')).isInterrupted = m.tick.isInterrupted from rfl]
  split
  · exact fail_changed (relist_reports o lines') own rfl
  · exact reduce_changed (relist_reports o lines') own

theorem steps_options (fuel : Nat) (m : Machine) : (steps fuel m).2.options = m.options := by
  induction fuel generalizing m with
  | zero => rfl
  | succ fuel ih =>
    have kept := m.step_keeps.2.2
    unfold steps
    cases step : m.step with
    | running next =>
      rw [step] at kept
      exact (ih next).trans kept
    | finished value last | faulted fault last =>
      rw [step] at kept
      exact kept

theorem steps_relist (telling : m.options = .telling) (o : Options) (lines : Array String) (fuel : Nat) :
    ∃ lines', steps fuel (m.changed (relist o lines)) =
      ((steps fuel m).1.shown o, (steps fuel m).2.changed (relist o lines')) := by
  induction fuel generalizing m lines with
  | zero => exact ⟨lines, rfl⟩
  | succ fuel ih =>
    obtain ⟨lines', same⟩ := step_relist telling o lines
    have kept := m.step_keeps.2.2
    unfold steps
    rw [same]
    cases step : m.step with
    | running next =>
      rw [step] at kept
      exact ih (kept.trans telling) lines'
    | finished value last => exact ⟨lines', rfl⟩
    | faulted fault last => exact ⟨lines', rfl⟩

/-- The flushes at the end do not look at the options, and a flush that fails has no place to show. -/
theorem conclude_relist (o : Options) (lines : Array String) (result : RunResult) (m : Machine) :
    conclude (result.shown o) (m.changed (relist o lines)) =
      ((conclude result m).1.shown o, (conclude result m).2.changed (relist o lines)) := by
  unfold conclude onStreams
  rw [show (m.changed (relist o lines)).streams = m.streams from rfl]
  cases result with
  | value v =>
    dsimp only [RunResult.shown]
    cases (flushAll m.streams).1 with
    | ok => rfl
    | error error => simp [Fault.shown, changed, relist]
  | fault fault => rfl
  | outOfFuel => rfl

theorem run_options (fuel : Nat) (m : Machine) (entry : Term) : (m.run fuel entry).2.options = m.options := by
  have kept := steps_options fuel (m.load entry)
  unfold run conclude
  dsimp only
  split <;> exact kept

theorem run_relist (telling : m.options = .telling) (o : Options) (lines : Array String) (fuel : Nat) (entry : Term) :
    ∃ lines', (m.changed (relist o lines)).run fuel entry =
      ((m.run fuel entry).1.shown o, (m.run fuel entry).2.changed (relist o lines')) := by
  obtain ⟨lines', same⟩ := steps_relist (m := m.load entry) telling o #[] fuel
  refine ⟨lines', ?_⟩
  unfold run
  rw [show (m.changed (relist o lines)).load entry = (m.load entry).changed (relist o #[]) from rfl, same]
  exact conclude_relist o lines' _ _

theorem runs_relist (telling : m.options = .telling) (o : Options) (lines : Array String) (jobs : List (Nat × Term)) :
    ∃ lines', runs jobs (m.changed (relist o lines)) =
      ((runs jobs m).1.map (RunResult.shown o), (runs jobs m).2.changed (relist o lines')) := by
  induction jobs generalizing m lines with
  | nil => exact ⟨lines, rfl⟩
  | cons job rest ih =>
    obtain ⟨fuel, entry⟩ := job
    obtain ⟨between, same⟩ := run_relist telling o lines fuel entry
    obtain ⟨lines', later⟩ := ih ((m.run_options fuel entry).trans telling) between
    refine ⟨lines', ?_⟩
    unfold runs
    rw [same]
    dsimp only
    rw [later]
    rfl

/-- Whatever runs are made on two machines for the same globals, which meet the same streams under different options,
the streams are called alike and in the same order, so that the same bytes are written; the counters and the thunks
end alike, and so do the runs, but for the place of a fault and the references that led to it. -/
theorem runs_alike (globals : Array Global) (streams : Streams) (interrupt : Interrupt) (o o' : Options)
    (jobs : List (Nat × Term)) :
    let first := runs jobs (start globals streams interrupt o)
    let second := runs jobs (start globals streams interrupt o')
    first.1.Forall₂ (RunResult.Alike o o') second.1 ∧
      second.2.streams = first.2.streams ∧ second.2.stats = first.2.stats ∧ second.2.heap = first.2.heap := by
  intro first second
  have telling : (start globals streams interrupt .telling).options = .telling := rfl
  obtain ⟨lines, same⟩ := runs_relist telling o #[] jobs
  obtain ⟨lines', same'⟩ := runs_relist telling o' #[] jobs
  change first = _ at same
  change second = _ at same'
  rw [same, same']
  refine ⟨?_, rfl, rfl, rfl⟩
  rw [List.forall₂_map_left_iff, List.forall₂_map_right_iff, List.forall₂_same]
  exact fun result _ => result.shown_alike o o'

end Machine

end MixfixLambda
