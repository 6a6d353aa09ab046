import MixfixLambda.Proofs.Machine.Episodes

/-!
# Changes that reductions do not see

A reduction leaves the count of steps, the interrupt flag, the options and the list of steps alone, and of
all these it reads the options only, to report a fault. So it makes no difference whether they are changed
before a reduction or after it, but for the report of a fault.
-/
namespace MixfixLambda

/-- The same outcome with another machine. -/
def StepResult.on (change : Machine → Machine) : StepResult → StepResult
  | .running m => .running (change m)
  | .finished value m => .finished value (change m)
  | .faulted fault m => .faulted fault (change m)

/-- The same outcome with another report of a fault. -/
def StepResult.reporting (report : Fault → Fault) : StepResult → StepResult
  | .running m => .running m
  | .finished value m => .finished value m
  | .faulted fault m => .faulted (report fault) m

/-- What becomes of the parts of a machine that reductions leave alone. -/
structure Change where
  count : Nat → Nat
  flag : Interrupt → Interrupt
  options : Options → Options
  listed : Array String → Array String

def Machine.changed (m : Machine) (c : Change) : Machine :=
  { m with
    stats := { m.stats with steps := c.count m.stats.steps }
    interrupt := c.flag m.interrupt
    options := c.options m.options
    traced := c.listed m.traced }

/-- How a machine with the given options reports its faults after the change. -/
def Change.Reports (c : Change) (options : Options) (report : Fault → Fault) : Prop :=
  ∀ (m : Machine) (cause : FaultCause) (tag : Option Tag), m.options = options →
    (m.changed c).faultAt cause tag = report (m.faultAt cause tag)

/-- The outcome of a changed machine. -/
def StepResult.changed (result : StepResult) (c : Change) (report : Fault → Fault) : StepResult :=
  (result.on (·.changed c)).reporting report

namespace Machine

variable {c : Change} {options : Options} {report : Fault → Fault} {m m' : Machine} {thunk index available : Nat}
  {left right term : Term} {operation : Builtin} {tag : Tag} {values : List Int} {arguments : List Nat}

theorem fail_changed {cause : FaultCause} {tag : Option Tag} (reports : c.Reports options report)
    (own : m.options = options) (same : m' = m.changed c) : m'.fail cause tag = (m.fail cause tag).changed c report := by
  subst same
  exact congrArg (StepResult.faulted · (m.changed c)) (reports m cause tag own)

theorem enter_changed (reports : c.Reports options report) (own : m.options = options) (same : m' = m.changed c) :
    m'.enter thunk = (m.enter thunk).changed c report := by
  subst same
  unfold enter
  rw [show (m.changed c).heap = m.heap from rfl]
  dsimp only
  split
  · exact fail_changed reports own rfl
  · rfl
  · rfl

/-- An argument is passed on, or a thunk is made for it. -/
theorem apply_changed (reports : c.Reports options report) (own : m.options = options) :
    (match (m.changed c).delay right with
      | (.ok thunk, m) => .running { m with spine := m.spine.push (.arg thunk), term := left }
      | (.error (fault, tag), m) => m.fail (.internal fault) (some tag)) =
    (match m.delay right with
      | (.ok thunk, m) => StepResult.running { m with spine := m.spine.push (.arg thunk), term := left }
      | (.error (fault, tag), m) => m.fail (.internal fault) (some tag)).changed c report := by
  unfold delay
  rw [show (m.changed c).locals = m.locals from rfl]
  cases right with
  | var depth tag =>
    dsimp only
    cases m.locals[depth]? with
    | some thunk => rfl
    | none => exact fail_changed reports own rfl
  | _ => rfl

theorem constant_changed (reports : c.Reports options report) (own : m.options = options) (same : m' = m.changed c) :
    (m'.constant index term).2.enter (m'.constant index term).1 =
      ((m.constant index term).2.enter (m.constant index term).1).changed c report := by
  subst same
  unfold constant
  rw [show (m.changed c).constants = m.constants from rfl]
  split
  · exact enter_changed reports own rfl
  · exact enter_changed reports own rfl

/-- An operation changes the streams only. -/
theorem primitive_changed (c : Change) (m : Machine) (operation : Builtin) (values : List Int) :
    (m.changed c).primitive operation values =
        ((m.primitive operation values).1, (m.primitive operation values).2.changed c) ∧
      (m.primitive operation values).2.options = m.options := by
  unfold primitive onStreams
  rw [show (m.changed c).streams = m.streams from rfl, show (m.changed c).aborting = m.aborting from rfl]
  split
  · split
    · dsimp only
      split <;> exact ⟨rfl, rfl⟩
    · exact ⟨rfl, rfl⟩
  · dsimp only
    split <;> exact ⟨rfl, rfl⟩
  all_goals exact ⟨rfl, rfl⟩

theorem answered_changed (reports : c.Reports options report) (own : m.options = options) (same : m' = m.changed c) :
    answered tag (m'.primitive operation values) =
      (answered tag (m.primitive operation values)).changed c report := by
  subst same
  obtain ⟨outcome, kept⟩ := primitive_changed c m operation values
  rw [outcome]
  cases primitive : m.primitive operation values with
  | mk answer after =>
    rw [primitive] at kept
    cases answer with
    | ok term => rfl
    | error cause => exact fail_changed reports (kept.trans own) rfl

theorem settle_changed (reports : c.Reports options report) (own : m.options = options) :
    (m.changed c).settle = m.settle.changed c report := by
  unfold settle
  rw [show (m.changed c).spine = m.spine from rfl, show (m.changed c).term = m.term from rfl]
  split
  · rfl
  · exact fail_changed reports own rfl
  · rfl
  · exact fail_changed reports own rfl
  · dsimp only
    split
    · split
      · exact enter_changed reports own rfl
      · exact answered_changed reports own rfl
    · exact fail_changed reports own rfl

theorem partialApplication_changed (reports : c.Reports options report) (own : m.options = options) :
    (m.changed c).partialApplication operation tag available =
      (m.partialApplication operation tag available).changed c report := by
  unfold partialApplication
  rw [show (m.changed c).spine = m.spine from rfl]
  split
  · dsimp only
    split
    · rfl
    · exact fail_changed reports own rfl
  · exact fail_changed reports own rfl
  · exact fail_changed reports own rfl

theorem call_changed (reports : c.Reports options report) (own : m.options = options) (same : m' = m.changed c) :
    m'.call operation tag arguments = (m.call operation tag arguments).changed c report := by
  subst same
  unfold call
  cases arguments with
  | nil =>
    dsimp only
    split
    · exact fail_changed reports own rfl
    · exact fail_changed reports own rfl
  | cons first pending =>
    dsimp only
    split
    · exact enter_changed reports own rfl
    · exact enter_changed reports own rfl

/-- A reduction of a changed machine comes to the same, but for the report of a fault. -/
theorem reduce_changed (reports : c.Reports options report) (own : m.options = options) :
    (m.changed c).reduce = m.reduce.changed c report := by
  unfold reduce
  rw [show (m.changed c).spine = m.spine from rfl, show (m.changed c).term = m.term from rfl,
    show (m.changed c).locals = m.locals from rfl, show (m.changed c).globals = m.globals from rfl]
  split
  · exact apply_changed reports own
  · split
    · rfl
    · exact settle_changed reports own
  · split
    · exact enter_changed reports own rfl
    · exact fail_changed reports own rfl
  · dsimp only
    split
    · exact fail_changed reports own rfl
    · split
      · rfl
      · exact constant_changed reports own rfl
  · split
    · unfold unfold
      dsimp only
      split <;> rfl
    · exact settle_changed reports own
  · dsimp only
    split
    · exact partialApplication_changed reports own
    · exact call_changed reports own rfl

/-- The same holds where faults are reported as before. -/
theorem reduce_changed_alike (alike : c.Reports m.options id) : (m.changed c).reduce = m.reduce.on (·.changed c) := by
  rw [reduce_changed alike rfl]
  unfold StepResult.changed
  cases m.reduce <;> rfl

/-- A reduction keeps what it does not see. -/
theorem reduce_keeps (m : Machine) :
    m.reduce.machine.stats.steps = m.stats.steps ∧ m.reduce.machine.interrupt = m.interrupt ∧
      m.reduce.machine.options = m.options := by
  -- the change that puts back what the machine had before is none for this machine
  let back : Change := ⟨fun _ => m.stats.steps, fun _ => m.interrupt, fun _ => m.options, id⟩
  have alike : back.Reports m.options id := by
    intro other cause tag own
    have kept : (other.changed back).options = other.options := own.symm
    rw [faultAt, kept]
    rfl
  have same : m.reduce = m.reduce.on (·.changed back) := reduce_changed_alike alike
  rw [same]
  cases m.reduce with
  | running | finished | faulted => exact ⟨rfl, rfl, rfl⟩

theorem tick_keeps (m : Machine) :
    m.tick.stats.steps = m.stats.steps + 1 ∧ m.tick.interrupt = m.interrupt ∧ m.tick.options = m.options := by
  unfold tick
  dsimp only
  split <;> exact ⟨rfl, rfl, rfl⟩

/-- Every step counts itself, whatever comes of it. -/
theorem step_keeps (m : Machine) :
    m.step.machine.stats.steps = m.stats.steps + 1 ∧ m.step.machine.interrupt = m.interrupt ∧
      m.step.machine.options = m.options := by
  obtain ⟨ticked, raised, told⟩ := m.tick_keeps
  unfold step
  dsimp only
  split
  · exact ⟨ticked, raised, told⟩
  · obtain ⟨count, flag, options⟩ := m.tick.reduce_keeps
    exact ⟨count.trans ticked, flag.trans raised, options.trans told⟩

end Machine

end MixfixLambda
