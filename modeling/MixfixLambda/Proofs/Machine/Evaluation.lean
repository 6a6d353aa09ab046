import Mathlib.Logic.Relation
import MixfixLambda.Proofs.Machine.Runs

/-!
# Evaluation

Running a program by hand. A state is what a machine works on, without what it only reports: code is a term
without its tags, and thunks and frames have no backtraces. Each rule says of one kind of state that whatever
the next state leads to, this one leads to as well. The rules are read backward, so that the proof that a
program comes to something follows the program from its start.
-/
namespace MixfixLambda

open Relation

/-- A term without its tags. -/
inductive Code where
  | int (value : Int)
  | builtin (operation : Builtin)
  | var (depth : Nat)
  | global (index : Nat)
  | fn (body : Code)
  | app (left right : Code)
  deriving DecidableEq, Repr

def Term.code : Term → Code
  | .int value => .int value
  | .builtin operation _ => .builtin operation
  | .var depth _ => .var depth
  | .global index _ => .global index
  | .lam _ body => .fn body.code
  | .app left right => .app left.code right.code

/-- A thunk without its backtrace. -/
structure Slot where
  code : Code
  env : Env
  state : ThunkState

def Closure.slot (c : Closure) : Slot :=
  ⟨c.term.code, c.locals, c.state⟩

/-- A frame without its tag and its backtrace. -/
inductive Wait where
  | arg (thunk : Nat)
  | update (thunk : Nat)
  | force (operation : Builtin) (values : List Int) (pending : List Nat)

def Frame.wait : Frame → Wait
  | .arg thunk => .arg thunk
  | .update thunk => .update thunk
  | .force operation _ values pending _ => .force operation values pending

namespace Code

def isValue : Code → Bool
  | .int _ | .builtin _ | .fn _ => true
  | _ => false

/-- The thunks that suspended code keeps. -/
def captured (env : Env) : Code → Env
  | .fn _ | .app .. => env
  | _ => []

/-- A variable is passed on with its own thunk. -/
def IsVar : Code → Prop
  | .var _ => True
  | _ => False

/-- A value that is complete without arguments. -/
def Settles : Code → Prop
  | .int _ | .fn _ => True
  | _ => False

/-- A thunk for code that has not been evaluated. -/
def slot (code : Code) (env : Env) : Slot :=
  ⟨code, code.captured env, if code.isValue then .done else .pending⟩

end Code

namespace Term

theorem isValue_code (t : Term) : t.code.isValue = t.isValue := by
  cases t <;> rfl

theorem slot_of (t : Term) (locals : Env) (backtrace : Backtrace) :
    (Closure.of t (t.captured locals) backtrace).slot = t.code.slot locals := by
  rw [Code.slot, isValue_code]
  cases t <;> rfl

section Inversion

variable {t : Term} {code left right : Code}

theorem int_of_code {value : Int} (same : t.code = .int value) : t = .int value := by
  cases t <;> cases same
  rfl

theorem builtin_of_code {operation : Builtin} (same : t.code = .builtin operation) :
    ∃ tag, t = .builtin operation tag := by
  cases t <;> cases same
  exact ⟨_, rfl⟩

theorem var_of_code {depth : Nat} (same : t.code = .var depth) : ∃ tag, t = .var depth tag := by
  cases t <;> cases same
  exact ⟨_, rfl⟩

theorem global_of_code {index : Nat} (same : t.code = .global index) : ∃ tag, t = .global index tag := by
  cases t <;> cases same
  exact ⟨_, rfl⟩

theorem lam_of_code (same : t.code = .fn code) : ∃ tag body, t = .lam tag body ∧ body.code = code := by
  cases t <;> cases same
  exact ⟨_, _, rfl, rfl⟩

theorem app_of_code (same : t.code = .app left right) :
    ∃ l r, t = .app l r ∧ l.code = left ∧ r.code = right := by
  cases t <;> cases same
  exact ⟨_, _, rfl, rfl, rfl⟩

end Inversion

end Term

/-- The thunks of a state. -/
abbrev Memory := Array Slot

namespace Memory

/-- The thunk is being evaluated. -/
def mark (h : Memory) (thunk : Nat) : Memory :=
  h.modify thunk fun c => { c with state := .running }

/-- The thunk has a value. -/
def fill (h : Memory) (thunk : Nat) (code : Code) (env : Env) : Memory :=
  h.modify thunk fun _ => ⟨code, env, .done⟩

end Memory

/-- What a machine works on. -/
structure State where
  constants : Array (Option Nat)
  heap : Memory
  streams : Streams
  frames : List Wait
  code : Code
  env : Env

namespace Machine

/-- The machine has these globals, writes to the output, and nobody interrupts it. -/
structure Normal (globals : Array Code) (m : Machine) : Prop where
  globals : m.globals.map (·.term.code) = globals
  interrupt : m.interrupt = .never
  aborting : m.aborting = false

def state (m : Machine) : State where
  constants := m.constants
  heap := m.heap.map Closure.slot
  streams := m.streams
  frames := m.spine.frames.map Frame.wait
  code := m.term.code
  env := m.locals

theorem tick_state (m : Machine) : m.tick.state = m.state := by
  unfold tick
  dsimp only
  split <;> rfl

theorem Normal.tick {globals : Array Code} {m : Machine} (normal : m.Normal globals) : m.tick.Normal globals := by
  obtain ⟨same, never, normally⟩ := normal
  unfold Machine.tick
  dsimp only
  split <;> exact ⟨same, never, normally⟩

/-- Nobody interrupts the machine. -/
theorem step_of_never {m : Machine} (never : m.interrupt = .never) : m.step = m.tick.reduce := by
  have same : m.tick.interrupt = m.interrupt := by
    unfold tick
    dsimp only
    split <;> rfl
  have quiet : m.tick.isInterrupted = false := by
    rw [isInterrupted, isRaised, same, never, Bool.and_false]
  unfold Machine.step
  dsimp only
  rw [quiet]
  rfl

theorem Normal.step {globals : Array Code} {m : Machine} (normal : m.Normal globals) : m.step = m.tick.reduce :=
  step_of_never normal.interrupt

/-- Some steps lead from the first machine to the second. -/
def Reaches (m m' : Machine) : Prop :=
  ∃ count : Nat, ∀ fuel, steps (fuel + count) m = steps fuel m'

namespace Reaches

variable {m m' m'' : Machine}

theorem refl (m : Machine) : m.Reaches m :=
  ⟨0, fun _ => rfl⟩

theorem head (step : m.step = .running m') (reaches : m'.Reaches m'') : m.Reaches m'' := by
  obtain ⟨count, same⟩ := reaches
  refine ⟨count + 1, fun fuel => ?_⟩
  rw [← Nat.add_assoc, steps, step]
  exact same fuel

theorem trans (first : m.Reaches m') (second : m'.Reaches m'') : m.Reaches m'' := by
  obtain ⟨count, same⟩ := first
  obtain ⟨count', same'⟩ := second
  refine ⟨count' + count, fun fuel => ?_⟩
  rw [← Nat.add_assoc, same, same']

/-- A run that gets to a machine whose next step is the last one ends with that step. -/
theorem steps_of_last {result : RunResult} {last : Machine} (reaches : m.Reaches m')
    (ends : ∀ fuel, steps (fuel + 1) m' = (result, last)) :
    ∃ enough, ∀ fuel, enough ≤ fuel → steps fuel m = (result, last) := by
  obtain ⟨count, same⟩ := reaches
  refine ⟨count + 1, fun fuel enough => ?_⟩
  obtain ⟨fuel, rfl⟩ := Nat.exists_eq_add_of_le' enough
  rw [← Nat.add_assoc, Nat.add_right_comm, same, ends]

end Reaches

/-- An operation on two integers leaves the machine as it is. -/
theorem primitive_pair {operation : Builtin} {a b : Int} (m : Machine) (two : operation.arity = 2) :
    m.primitive operation [a, b] = (operation.binary a b, m) := by
  cases operation with
  | put | get | abort => cases two
  | _ => rfl

/-- An operation other than `abort` collects a value, and goes on with its next argument. -/
theorem settle_of_next {m : Machine} {operation : Builtin} {tag : Tag} {values : List Int} {value : Int} {next : Nat}
    {pending : List Nat} {backtrace : Backtrace} (focus : m.term = .int value) (strict : operation ≠ .abort)
    (top : m.spine.top? = some (.force operation tag values (next :: pending) backtrace)) :
    m.settle = enter { m with
      spine := m.spine.pop.push (.force operation tag (values ++ [value]) pending backtrace) } next := by
  rw [settle, top]
  cases operation with
  | abort => exact absurd rfl strict
  | _ =>
    dsimp only
    rw [focus]

/-- An operation other than `abort` has its last value. -/
theorem settle_of_last {m : Machine} {operation : Builtin} {tag : Tag} {values : List Int} {value : Int}
    {backtrace : Backtrace} (focus : m.term = .int value) (strict : operation ≠ .abort)
    (top : m.spine.top? = some (.force operation tag values [] backtrace)) :
    m.settle = match primitive { m with spine := m.spine.pop, backtrace } operation (values ++ [value]) with
      | (.ok term, m) => .running { m with term, locals := [] }
      | (.error cause, m) => m.fail cause (some tag) := by
  rw [settle, top]
  cases operation with
  | abort => exact absurd rfl strict
  | _ =>
    dsimp only
    generalize m.term = term at focus ⊢
    subst focus
    rfl

/-- What changes a thunk, seen from its slot. -/
theorem map_slot_modify (h : Heap) (thunk : Nat) {f : Closure → Closure} {g : Slot → Slot}
    (commutes : ∀ c, (f c).slot = g c.slot) :
    (h.modify thunk f).map Closure.slot = (Array.map Closure.slot h).modify thunk g := by
  refine Array.ext_getElem? fun i => ?_
  rw [Array.getElem?_map, Array.getElem?_modify, Array.getElem?_modify, Array.getElem?_map]
  split
  · cases h[i]? with
    | none => rfl
    | some c => exact congrArg some (commutes c)
  · rfl

end Machine

/-- The arguments that a spine starts with are taken off it. -/
theorem Spine.popArguments_of_waits {s : Spine} {arguments : List Nat} {rest : List Frame}
    (waits : Config.Waits s.frames arguments rest) :
    arguments.length ≤ s.available ∧ (s.popArguments arguments.length).1 = arguments ∧
      (s.popArguments arguments.length).2.frames = rest := by
  have enough : arguments.length ≤ s.available := by
    rw [available, waits, List.takeWhile_append_of_pos]
    · simp
    · simp [Frame.isArg]
  obtain ⟨length, whole⟩ := s.popArguments_spec _ enough
  have unique := Config.Waits.unique whole waits length
  exact ⟨enough, unique⟩

namespace State

/-- A step that comes to a normal machine in a state. -/
def Comes (globals : Array Code) (result : StepResult) (s : State) : Prop :=
  ∃ m : Machine, result = .running m ∧ m.Normal globals ∧ m.state = s

/-- Every normal machine in the first state comes to the second one. -/
def Goes (globals : Array Code) (s s' : State) : Prop :=
  ∀ m : Machine, m.Normal globals → m.state = s → Comes globals m.reduce s'

/-- From a state the machine gets to one that has a property. -/
def Leads (globals : Array Code) (Q : State → Prop) (s : State) : Prop :=
  ∃ s', ReflTransGen (Goes globals) s s' ∧ Q s'

/-- The machine goes on with a thunk. -/
inductive Enters (s : State) (thunk : Nat) : State → Prop
  | done {code : Code} {env : Env} (found : s.heap[thunk]? = some ⟨code, env, .done⟩) :
      Enters s thunk { s with code, env }
  | pending {code : Code} {env : Env} (found : s.heap[thunk]? = some ⟨code, env, .pending⟩) :
      Enters s thunk { s with
        code, env
        heap := s.heap.mark thunk
        frames := .update thunk :: s.frames }

/-- Going on with a thunk leads to a state that has a property. -/
def Forces (globals : Array Code) (Q : State → Prop) (s : State) (thunk : Nat) : Prop :=
  ∃ s', Enters s thunk s' ∧ Leads globals Q s'

section Machines

variable {m : Machine} {globals : Array Code} {s s' : State} {below : List Wait}

theorem closure_of_slot {h : Heap} {thunk : Nat} {slot : Slot}
    (found : (Array.map Closure.slot h)[thunk]? = some slot) : (h.getD thunk default).slot = slot := by
  rw [Array.getElem?_map, Option.map_eq_some_iff] at found
  obtain ⟨closure, here, same⟩ := found
  rw [Array.getD_eq_getD_getElem?, here]
  exact same

theorem Enters.comes {thunk : Nat} (enters : Enters s thunk s') (state : m.state = s)
    (normal : m.Normal globals) : Comes globals (m.enter thunk) s' := by
  subst state
  obtain ⟨same, never, normally⟩ := normal
  cases enters with
  | done found =>
    have slot := Slot.mk.inj (closure_of_slot found)
    rw [Machine.enter, slot.2.2]
    refine ⟨_, rfl, ⟨same, never, normally⟩, ?_⟩
    simp only [Machine.state, slot]
  | pending found =>
    have slot := Slot.mk.inj (closure_of_slot found)
    have marked := Machine.map_slot_modify m.heap thunk (f := fun c => { c with state := .running })
      (g := fun c => { c with state := .running }) fun _ => rfl
    rw [Machine.enter, slot.2.2]
    refine ⟨_, rfl, ⟨same, never, normally⟩, ?_⟩
    simp only [Machine.state, slot, Spine.push_frames, List.map_cons, Frame.wait, marked]
    rfl

theorem top_of_wait {wait : Wait} (top : m.state.frames = wait :: below) :
    ∃ first, m.spine.top? = some first ∧ first.wait = wait ∧ m.spine.pop.frames.map Frame.wait = below := by
  obtain ⟨first, rest, split, here, there⟩ := List.map_eq_cons_iff.mp top
  have found : m.spine.top? = some first := by rw [Spine.top?, split, List.head?_cons]
  have frames := Spine.frames_of_top? found
  rw [split, List.cons.injEq] at frames
  exact ⟨first, found, here, frames.2 ▸ there⟩

theorem arg_of_wait {frame : Frame} {thunk : Nat} (same : frame.wait = .arg thunk) : frame = .arg thunk := by
  cases frame <;> cases same
  rfl

theorem top_of_arg {thunk : Nat} (top : m.state.frames = .arg thunk :: below) :
    m.spine.top? = some (.arg thunk) ∧ m.spine.pop.frames.map Frame.wait = below := by
  obtain ⟨first, found, here, rest⟩ := top_of_wait top
  exact ⟨arg_of_wait here ▸ found, rest⟩

theorem top_of_update {thunk : Nat} (top : m.state.frames = .update thunk :: below) :
    m.spine.top? = some (.update thunk) ∧ m.spine.pop.frames.map Frame.wait = below := by
  obtain ⟨first, found, here, rest⟩ := top_of_wait top
  cases first <;> cases here
  exact ⟨found, rest⟩

theorem top_of_force {operation : Builtin} {values : List Int} {pending : List Nat}
    (top : m.state.frames = .force operation values pending :: below) :
    ∃ tag backtrace, m.spine.top? = some (.force operation tag values pending backtrace) ∧
      m.spine.pop.frames.map Frame.wait = below := by
  obtain ⟨first, found, here, rest⟩ := top_of_wait top
  cases first <;> cases here
  exact ⟨_, _, found, rest⟩

theorem args_of_waits {front : List Frame} {arguments : List Nat}
    (same : front.map Frame.wait = arguments.map .arg) : front = arguments.map .arg := by
  induction arguments generalizing front with
  | nil => exact List.map_eq_nil_iff.mp same
  | cons thunk rest ih =>
    obtain ⟨first, others, rfl, here, there⟩ := List.map_eq_cons_iff.mp same
    rw [arg_of_wait here, ih there, List.map_cons]

/-- Arguments on the spine are taken off it. -/
theorem arguments_of_waits {arguments : List Nat} (top : m.state.frames = arguments.map .arg ++ below) :
    arguments.length ≤ m.spine.available ∧ (m.spine.popArguments arguments.length).1 = arguments ∧
      (m.spine.popArguments arguments.length).2.frames.map Frame.wait = below := by
  obtain ⟨front, rest, split, here, there⟩ := List.map_eq_append_iff.mp top
  have waits : Config.Waits m.spine.frames arguments rest := by rw [Config.Waits, split, args_of_waits here]
  obtain ⟨enough, same, lower⟩ := Spine.popArguments_of_waits waits
  exact ⟨enough, same, lower ▸ there⟩

/-- A value that takes no argument is settled. -/
theorem reduce_of_settles (value : m.term.code.Settles) (bare : ∀ thunk, m.spine.top? ≠ some (.arg thunk)) :
    m.reduce = m.settle := by
  unfold Machine.reduce
  cases focus : m.term with
  | int | lam =>
    dsimp only
    split
    · next thunk top => exact absurd top (bare thunk)
    · rfl
  | _ =>
    rw [focus] at value
    exact absurd value id

theorem reduce_of_force {operation : Builtin} {tag : Tag} {values : List Int} {value : Int}
    {pending : List Nat} {backtrace : Backtrace} (focus : m.term = .int value)
    (top : m.spine.top? = some (.force operation tag values pending backtrace)) : m.reduce = m.settle := by
  have bare : ∀ thunk, m.spine.top? ≠ some (.arg thunk) := by simp [top]
  exact reduce_of_settles (focus ▸ trivial) bare

/-- An integer comes to an operation that has another argument. -/
theorem reduce_of_next {operation : Builtin} {tag : Tag} {values : List Int} {value : Int} {next : Nat}
    {pending : List Nat} {backtrace : Backtrace} (focus : m.term = .int value) (strict : operation ≠ .abort)
    (top : m.spine.top? = some (.force operation tag values (next :: pending) backtrace)) :
    m.reduce = Machine.enter { m with
      spine := m.spine.pop.push (.force operation tag (values ++ [value]) pending backtrace) } next := by
  rw [reduce_of_force focus top, Machine.settle_of_next focus strict top]

/-- An integer is the last argument of an operation that succeeds. -/
theorem reduce_of_last {m' : Machine} {operation : Builtin} {tag : Tag} {values : List Int} {value : Int}
    {backtrace : Backtrace} {result : Term} (focus : m.term = .int value) (strict : operation ≠ .abort)
    (top : m.spine.top? = some (.force operation tag values [] backtrace))
    (answer : Machine.primitive { m with spine := m.spine.pop, backtrace } operation (values ++ [value]) =
      (.ok result, m')) :
    m.reduce = .running { m' with term := result, locals := [] } := by
  rw [reduce_of_force focus top, Machine.settle_of_last focus strict top, answer]

/-- A value with nothing left to do is the result. -/
theorem reduce_of_end (bare : m.state.frames = []) (value : m.state.code.Settles) :
    m.reduce = .finished ⟨m.term, m.locals⟩ m := by
  have empty : m.spine.top? = none := by
    rw [Spine.top?, List.map_eq_nil_iff.mp bare, List.head?_nil]
  rw [reduce_of_settles value (by simp [empty]), Machine.settle, empty]

end Machines

section Rules

variable {globals : Array Code} {Q : State → Prop} {s s' : State}

theorem Leads.here (holds : Q s) : Leads globals Q s :=
  ⟨s, .refl, holds⟩

theorem Leads.step (goes : Goes globals s s') (leads : Leads globals Q s') : Leads globals Q s := by
  obtain ⟨last, rest, holds⟩ := leads
  exact ⟨last, .head goes rest, holds⟩

variable {constants : Array (Option Nat)} {heap : Memory} {streams : Streams} {frames : List Wait}
  {code : Code} {env : Env}

/-- What a reduction does is seen from the parts of the machine. -/
theorem Leads.of_reduce
    (comes : ∀ m : Machine, m.Normal globals → m.constants = constants → m.heap.map Closure.slot = heap →
      m.streams = streams → m.state.frames = frames → m.term.code = code → m.locals = env →
      Comes globals m.reduce s')
    (leads : Leads globals Q s') : Leads globals Q ⟨constants, heap, streams, frames, code, env⟩ := by
  refine .step (fun m normal same => ?_) leads
  have parts := State.mk.inj (show State.mk _ _ _ _ _ _ = _ from same)
  exact comes m normal parts.1 parts.2.1 parts.2.2.1 parts.2.2.2.1 parts.2.2.2.2.1 parts.2.2.2.2.2

/-- A thunk is made for an argument. -/
theorem Leads.delay {left right : Code} (complex : ¬ right.IsVar)
    (leads : Leads globals Q ⟨constants, heap.push (right.slot env), streams, .arg heap.size :: frames, left,
      env⟩) :
    Leads globals Q ⟨constants, heap, streams, frames, .app left right, env⟩ := by
  refine .of_reduce ?_ leads
  rintro m ⟨same, never, normally⟩ rfl rfl rfl rfl focus rfl
  obtain ⟨l, r, node, rfl, rfl⟩ := Term.app_of_code focus
  unfold Machine.reduce
  rw [node]
  have size : (Array.map Closure.slot m.heap).size = m.heap.size := Array.size_map
  have made := r.slot_of m.locals m.backtrace
  cases r with
  | var => exact absurd trivial complex
  | _ =>
    refine ⟨_, rfl, ⟨same, never, normally⟩, ?_⟩
    simp only [Machine.state, Machine.countThunk, Array.map_push, ← made, size]
    rfl

theorem Leads.delayFn {left body : Code}
    (leads : Leads globals Q ⟨constants, heap.push ⟨.fn body, env, .done⟩, streams, .arg heap.size :: frames, left,
      env⟩) :
    Leads globals Q ⟨constants, heap, streams, frames, .app left (.fn body), env⟩ :=
  .delay id leads

theorem Leads.delayApp {left function argument : Code}
    (leads : Leads globals Q ⟨constants, heap.push ⟨.app function argument, env, .pending⟩, streams,
      .arg heap.size :: frames, left, env⟩) :
    Leads globals Q ⟨constants, heap, streams, frames, .app left (.app function argument), env⟩ :=
  .delay id leads

theorem Leads.delayInt {left : Code} {value : Int}
    (leads : Leads globals Q ⟨constants, heap.push ⟨.int value, [], .done⟩, streams, .arg heap.size :: frames, left,
      env⟩) :
    Leads globals Q ⟨constants, heap, streams, frames, .app left (.int value), env⟩ :=
  .delay id leads

theorem Leads.delayGlobal {left : Code} {index : Nat}
    (leads : Leads globals Q ⟨constants, heap.push ⟨.global index, [], .pending⟩, streams,
      .arg heap.size :: frames, left, env⟩) :
    Leads globals Q ⟨constants, heap, streams, frames, .app left (.global index), env⟩ :=
  .delay id leads

/-- A variable brings its thunk. -/
theorem Leads.share {left : Code} {depth thunk : Nat} (bound : env[depth]? = some thunk)
    (leads : Leads globals Q ⟨constants, heap, streams, .arg thunk :: frames, left, env⟩) :
    Leads globals Q ⟨constants, heap, streams, frames, .app left (.var depth), env⟩ := by
  refine .of_reduce ?_ leads
  rintro m ⟨same, never, normally⟩ rfl rfl rfl rfl focus rfl
  obtain ⟨l, r, node, rfl, right⟩ := Term.app_of_code focus
  obtain ⟨tag, rfl⟩ := Term.var_of_code right
  unfold Machine.reduce
  rw [node]
  dsimp only [Machine.delay]
  rw [bound]
  exact ⟨_, rfl, ⟨same, never, normally⟩, rfl⟩

/-- A function takes its argument. -/
theorem Leads.bind {body : Code} {thunk : Nat}
    (leads : Leads globals Q ⟨constants, heap, streams, frames, body, thunk :: env⟩) :
    Leads globals Q ⟨constants, heap, streams, .arg thunk :: frames, .fn body, env⟩ := by
  refine .of_reduce ?_ leads
  rintro m ⟨same, never, normally⟩ rfl rfl rfl top focus rfl
  obtain ⟨tag, inner, node, rfl⟩ := Term.lam_of_code focus
  obtain ⟨found, rfl⟩ := top_of_arg top
  unfold Machine.reduce
  rw [node]
  dsimp only
  rw [found]
  exact ⟨_, rfl, ⟨same, never, normally⟩, rfl⟩

/-- A thunk that has been evaluated gives its value. -/
theorem Forces.value {thunk : Nat} {value : Code} {env' : Env} (found : heap[thunk]? = some ⟨value, env', .done⟩)
    (leads : Leads globals Q ⟨constants, heap, streams, frames, value, env'⟩) :
    Forces globals Q ⟨constants, heap, streams, frames, code, env⟩ thunk :=
  ⟨_, .done found, leads⟩

/-- A thunk that has not been evaluated is evaluated now. -/
theorem Forces.evaluate {thunk : Nat} {delayed : Code} {env' : Env}
    (found : heap[thunk]? = some ⟨delayed, env', .pending⟩)
    (leads : Leads globals Q ⟨constants, heap.mark thunk, streams, .update thunk :: frames, delayed, env'⟩) :
    Forces globals Q ⟨constants, heap, streams, frames, code, env⟩ thunk :=
  ⟨_, .pending found, leads⟩

/-- A variable is evaluated. -/
theorem Leads.lookup {depth thunk : Nat} (bound : env[depth]? = some thunk)
    (forces : Forces globals Q ⟨constants, heap, streams, frames, .var depth, env⟩ thunk) :
    Leads globals Q ⟨constants, heap, streams, frames, .var depth, env⟩ := by
  obtain ⟨s', enters, leads⟩ := forces
  refine .of_reduce ?_ leads
  rintro m normal rfl rfl rfl rfl focus rfl
  rw [← focus] at enters
  obtain ⟨tag, node⟩ := Term.var_of_code focus
  unfold Machine.reduce
  rw [node]
  dsimp only
  rw [bound]
  exact enters.comes rfl normal

/-- A thunk that waits for the value gets it. -/
theorem Leads.update {thunk : Nat} (value : code.Settles)
    (leads : Leads globals Q ⟨constants, heap.fill thunk code env, streams, frames, code, env⟩) :
    Leads globals Q ⟨constants, heap, streams, .update thunk :: frames, code, env⟩ := by
  refine .of_reduce ?_ leads
  rintro m ⟨same, never, normally⟩ rfl rfl rfl top rfl rfl
  obtain ⟨found, below⟩ := top_of_update top
  have filled := Machine.map_slot_modify m.heap thunk (f := (·.update m.term m.locals))
    (g := fun _ => ⟨m.term.code, m.locals, .done⟩) fun _ => rfl
  rw [reduce_of_settles value (by simp [found]), Machine.settle, found]
  refine ⟨_, rfl, ⟨same, never, normally⟩, ?_⟩
  simp only [Machine.state, Machine.updateThunk, Machine.countUpdate, filled, below]
  rfl

/-- A global that is a value stands for it. -/
theorem Leads.unfold {index : Nat} {definition : Code} (found : globals[index]? = some definition)
    (value : definition.isValue = true)
    (leads : Leads globals Q ⟨constants, heap, streams, frames, definition, []⟩) :
    Leads globals Q ⟨constants, heap, streams, frames, .global index, env⟩ := by
  refine .of_reduce ?_ leads
  rintro m ⟨rfl, never, normally⟩ rfl rfl rfl rfl focus rfl
  obtain ⟨tag, node⟩ := Term.global_of_code focus
  rw [Array.getElem?_map, Option.map_eq_some_iff] at found
  obtain ⟨global, found, rfl⟩ := found
  rw [Term.isValue_code] at value
  unfold Machine.reduce
  rw [node]
  dsimp only
  rw [found]
  dsimp only
  rw [if_pos value]
  exact ⟨_, rfl, ⟨rfl, never, normally⟩, rfl⟩

/-- A global that has not been needed before gets its thunk, and is evaluated. -/
theorem Leads.constant {index : Nat} {definition : Code} (found : globals[index]? = some definition)
    (lazy : definition.isValue = false) (unknown : constants[index]? = some none)
    (leads : Leads globals Q ⟨constants.set! index (some heap.size),
      Memory.mark (heap.push ⟨definition, [], .pending⟩) heap.size, streams, .update heap.size :: frames,
      definition, []⟩) :
    Leads globals Q ⟨constants, heap, streams, frames, .global index, env⟩ := by
  refine .of_reduce ?_ leads
  rintro m ⟨rfl, never, normally⟩ rfl rfl rfl rfl focus rfl
  obtain ⟨tag, node⟩ := Term.global_of_code focus
  rw [Array.getElem?_map, Option.map_eq_some_iff] at found
  obtain ⟨global, found, rfl⟩ := found
  rw [Term.isValue_code] at lazy
  have size : (Array.map Closure.slot m.heap).size = m.heap.size := Array.size_map
  unfold Machine.reduce
  rw [node]
  dsimp only
  rw [found]
  dsimp only
  rw [if_neg (by simp [lazy]), Machine.constant]
  dsimp only
  rw [unknown]
  dsimp only [Machine.alloc, Machine.countThunk]
  refine Enters.comes (s := ⟨m.constants.set! index (some (Array.map Closure.slot m.heap).size),
    (Array.map Closure.slot m.heap).push ⟨global.term.code, [], .pending⟩, m.streams, m.state.frames,
    .global index, m.locals⟩) ?_ ?_ ⟨rfl, never, normally⟩
  · rw [← size]
    exact .pending Array.getElem?_push_size
  · simp only [Machine.state, Closure.of, lazy, size, Array.map_push]
    rfl

/-- A global that has been needed before has its thunk. -/
theorem Leads.shared {index thunk : Nat} {definition : Code} (found : globals[index]? = some definition)
    (lazy : definition.isValue = false) (known : constants[index]? = some (some thunk))
    (forces : Forces globals Q ⟨constants, heap, streams, frames, .global index, env⟩ thunk) :
    Leads globals Q ⟨constants, heap, streams, frames, .global index, env⟩ := by
  obtain ⟨s', enters, leads⟩ := forces
  refine .of_reduce ?_ leads
  rintro m ⟨rfl, never, normally⟩ rfl rfl rfl rfl focus rfl
  rw [← focus] at enters
  obtain ⟨tag, node⟩ := Term.global_of_code focus
  rw [Array.getElem?_map, Option.map_eq_some_iff] at found
  obtain ⟨global, found, rfl⟩ := found
  rw [Term.isValue_code] at lazy
  unfold Machine.reduce
  rw [node]
  dsimp only
  rw [found]
  dsimp only
  rw [if_neg (by simp [lazy]), Machine.constant]
  dsimp only
  rw [known]
  refine enters.comes ?_ ⟨rfl, never, normally⟩
  simp only [Machine.state, node]

/-- An operation has its arguments, and the first one is evaluated. -/
theorem Leads.call {operation : Builtin} {first : Nat} {pending : List Nat} {below : List Wait}
    (enough : pending.length + 1 = operation.arity) (strict : operation ≠ .abort)
    (forces : Forces globals Q ⟨constants, heap, streams, .force operation [] pending :: below,
      .builtin operation, env⟩ first) :
    Leads globals Q ⟨constants, heap, streams, (first :: pending).map .arg ++ below, .builtin operation, env⟩ := by
  obtain ⟨s', enters, leads⟩ := forces
  refine .of_reduce ?_ leads
  rintro m ⟨same, never, normally⟩ rfl rfl rfl top focus rfl
  obtain ⟨tag, node⟩ := Term.builtin_of_code focus
  obtain ⟨available, taken, rfl⟩ := arguments_of_waits top
  rw [List.length_cons, enough] at available taken enters
  unfold Machine.reduce
  rw [node]
  dsimp only
  rw [if_neg (by omega), taken, Machine.call]
  dsimp only
  rw [if_neg strict]
  exact enters.comes rfl ⟨same, never, normally⟩

theorem Leads.unary {operation : Builtin} {thunk : Nat} (one : operation.arity = 1) (strict : operation ≠ .abort)
    (forces : Forces globals Q ⟨constants, heap, streams, .force operation [] [] :: frames, .builtin operation, env⟩
      thunk) :
    Leads globals Q ⟨constants, heap, streams, .arg thunk :: frames, .builtin operation, env⟩ :=
  .call (show [].length + 1 = operation.arity from one.symm) strict forces

theorem Leads.binary {operation : Builtin} {first second : Nat} (two : operation.arity = 2)
    (forces : Forces globals Q ⟨constants, heap, streams, .force operation [] [second] :: frames,
      .builtin operation, env⟩ first) :
    Leads globals Q ⟨constants, heap, streams, .arg first :: .arg second :: frames, .builtin operation, env⟩ :=
  have strict : operation ≠ .abort := by
    rintro rfl
    cases two
  .call (show [second].length + 1 = operation.arity from two.symm) strict forces

/-- The next argument of an operation is evaluated. -/
theorem Leads.next {operation : Builtin} {values : List Int} {value : Int} {next : Nat} {pending : List Nat}
    (strict : operation ≠ .abort)
    (forces : Forces globals Q ⟨constants, heap, streams, .force operation (values ++ [value]) pending :: frames,
      .int value, env⟩ next) :
    Leads globals Q ⟨constants, heap, streams, .force operation values (next :: pending) :: frames,
      .int value, env⟩ := by
  obtain ⟨s', enters, leads⟩ := forces
  refine .of_reduce ?_ leads
  rintro m ⟨same, never, normally⟩ rfl rfl rfl top focus rfl
  obtain ⟨tag, backtrace, found, rfl⟩ := top_of_force top
  rw [← focus] at enters
  rw [reduce_of_next (Term.int_of_code focus) strict found]
  exact enters.comes rfl ⟨same, never, normally⟩

/-- An operation on two integers has its result. -/
theorem Leads.compute {operation : Builtin} {a b : Int} {result : Term} (two : operation.arity = 2)
    (answer : operation.binary a b = .ok result)
    (leads : Leads globals Q ⟨constants, heap, streams, frames, result.code, []⟩) :
    Leads globals Q ⟨constants, heap, streams, .force operation [a] [] :: frames, .int b, env⟩ := by
  refine .of_reduce ?_ leads
  rintro m ⟨same, never, normally⟩ rfl rfl rfl top focus rfl
  obtain ⟨tag, backtrace, found, rfl⟩ := top_of_force top
  have strict : operation ≠ .abort := by
    rintro rfl
    cases two
  have result : ∀ m : Machine, m.primitive operation ([a] ++ [b]) = (.ok result, m) := by
    intro m
    rw [List.singleton_append, m.primitive_pair two, answer]
  rw [reduce_of_last (Term.int_of_code focus) strict found (result _)]
  exact ⟨_, rfl, ⟨same, never, normally⟩, rfl⟩

theorem Leads.computeInt {operation : Builtin} {a b result : Int} (two : operation.arity = 2)
    (answer : operation.binary a b = .ok (.int result))
    (leads : Leads globals Q ⟨constants, heap, streams, frames, .int result, []⟩) :
    Leads globals Q ⟨constants, heap, streams, .force operation [a] [] :: frames, .int b, env⟩ :=
  .compute two answer leads

theorem Leads.computeTrue {operation : Builtin} {a b : Int} (two : operation.arity = 2)
    (answer : operation.binary a b = .ok (Builtin.boolean true))
    (leads : Leads globals Q ⟨constants, heap, streams, frames, .fn (.fn (.var 1)), []⟩) :
    Leads globals Q ⟨constants, heap, streams, .force operation [a] [] :: frames, .int b, env⟩ :=
  .compute two answer leads

theorem Leads.computeFalse {operation : Builtin} {a b : Int} (two : operation.arity = 2)
    (answer : operation.binary a b = .ok (Builtin.boolean false))
    (leads : Leads globals Q ⟨constants, heap, streams, frames, .fn (.fn (.var 0)), []⟩) :
    Leads globals Q ⟨constants, heap, streams, .force operation [a] [] :: frames, .int b, env⟩ :=
  .compute two answer leads

/-- A positive numeral that is applied becomes the successor of the numeral before it. -/
theorem Leads.iterate {value : Int} {thunk : Nat} (positive : 0 < value)
    (leads : Leads globals Q ⟨constants, heap.push ⟨.int (value - 1), [], .done⟩, streams,
      .arg heap.size :: .arg thunk :: frames, Machine.succ.code, []⟩) :
    Leads globals Q ⟨constants, heap, streams, .arg thunk :: frames, .int value, env⟩ := by
  refine .of_reduce ?_ leads
  rintro m ⟨same, never, normally⟩ rfl rfl rfl top focus rfl
  obtain ⟨found, -⟩ := top_of_arg top
  have size : (Array.map Closure.slot m.heap).size = m.heap.size := Array.size_map
  unfold Machine.reduce
  rw [Term.int_of_code focus]
  dsimp only
  rw [found]
  dsimp only [Machine.unfold]
  rw [if_pos positive]
  refine ⟨_, rfl, ⟨same, never, normally⟩, ?_⟩
  rw [← top, size]
  simp only [Machine.state, Machine.alloc, Array.map_push]
  rfl

/-- Any other numeral that is applied gives its second argument. -/
theorem Leads.vanish {value : Int} {thunk : Nat} (exhausted : value ≤ 0)
    (leads : Leads globals Q ⟨constants, heap, streams, .arg thunk :: frames, Machine.zero.code, []⟩) :
    Leads globals Q ⟨constants, heap, streams, .arg thunk :: frames, .int value, env⟩ := by
  refine .of_reduce ?_ leads
  rintro m ⟨same, never, normally⟩ rfl rfl rfl top focus rfl
  obtain ⟨found, -⟩ := top_of_arg top
  unfold Machine.reduce
  rw [Term.int_of_code focus]
  dsimp only
  rw [found]
  dsimp only [Machine.unfold]
  rw [if_neg (by omega), ← top]
  exact ⟨_, rfl, ⟨same, never, normally⟩, rfl⟩

/-- A byte is written. -/
theorem Leads.put {value : Int} {streams' : Streams} (byte : 0 ≤ value ∧ value < 256)
    (answer : streams.write .output (UInt8.ofNat value.toNat) = (.ok (), streams'))
    (leads : Leads globals Q ⟨constants, heap, streams', frames, .fn (.var 0), []⟩) :
    Leads globals Q ⟨constants, heap, streams, .force .put [] [] :: frames, .int value, env⟩ := by
  refine .of_reduce ?_ leads
  rintro m ⟨same, never, normally⟩ rfl rfl rfl top focus rfl
  obtain ⟨tag, backtrace, found, rfl⟩ := top_of_force top
  have result : Machine.primitive { m with spine := m.spine.pop, backtrace } .put ([] ++ [value]) =
      (.ok Machine.identity, { m with spine := m.spine.pop, backtrace, streams := streams' }) := by
    rw [List.nil_append, Machine.primitive, if_pos byte]
    dsimp only [Machine.onStreams]
    rw [normally, if_neg (by decide), answer]
  rw [reduce_of_last (Term.int_of_code focus) (by decide) found result]
  exact ⟨_, rfl, ⟨same, never, normally⟩, rfl⟩

/-- A byte is read. -/
theorem Leads.get {index value : Int} {streams' : Streams} (answer : streams.get index = (.ok value, streams'))
    (leads : Leads globals Q ⟨constants, heap, streams', frames, .int value, []⟩) :
    Leads globals Q ⟨constants, heap, streams, .force .get [] [] :: frames, .int index, env⟩ := by
  refine .of_reduce ?_ leads
  rintro m ⟨same, never, normally⟩ rfl rfl rfl top focus rfl
  obtain ⟨tag, backtrace, found, rfl⟩ := top_of_force top
  have result : Machine.primitive { m with spine := m.spine.pop, backtrace } .get ([] ++ [index]) =
      (.ok (.int value), { m with spine := m.spine.pop, backtrace, streams := streams' }) := by
    rw [List.nil_append, Machine.primitive]
    dsimp only [Machine.onStreams]
    rw [answer]
  rw [reduce_of_last (Term.int_of_code focus) (by decide) found result]
  exact ⟨_, rfl, ⟨same, never, normally⟩, rfl⟩

end Rules

/-- Every machine in the state fails with the cause. -/
def Faults (globals : Array Code) (cause : FaultCause) (s : State) : Prop :=
  ∀ m : Machine, m.Normal globals → m.state = s → ∃ fault last, m.reduce = .faulted fault last ∧ fault.cause = cause

/-- An operation on two integers has no result. -/
theorem Faults.compute {globals : Array Code} {constants : Array (Option Nat)} {heap : Memory} {streams : Streams}
    {frames : List Wait} {env : Env} {operation : Builtin} {a b : Int} {cause : FaultCause}
    (two : operation.arity = 2) (answer : operation.binary a b = .error cause) :
    Faults globals cause ⟨constants, heap, streams, .force operation [a] [] :: frames, .int b, env⟩ := by
  intro m _ same
  have parts := State.mk.inj (show State.mk _ _ _ _ _ _ = _ from same)
  have focus := Term.int_of_code parts.2.2.2.2.1
  obtain ⟨tag, backtrace, found, -⟩ := top_of_force (m := m) parts.2.2.2.1
  rw [reduce_of_force focus found, Machine.settle, found]
  cases operation with
  | put | get | abort => cases two
  | _ =>
    dsimp only
    rw [focus]
    dsimp only [List.singleton_append]
    rw [Machine.primitive_pair _ two, answer]
    exact ⟨_, _, rfl, rfl⟩

section Runs

variable {globals : Array Code} {Q : State → Prop} {m : Machine}

/-- A machine gets to where its state leads. -/
theorem Leads.reaches (leads : Leads globals Q m.state) (normal : m.Normal globals) :
    ∃ last, m.Reaches last ∧ last.Normal globals ∧ Q last.state := by
  obtain ⟨s, path, holds⟩ := leads
  generalize start : m.state = first at path
  induction path using ReflTransGen.head_induction_on generalizing m with
  | refl => exact ⟨m, .refl m, normal, start ▸ holds⟩
  | head goes _ ih =>
    obtain ⟨next, running, normal', there⟩ := goes m.tick normal.tick (m.tick_state.trans start)
    obtain ⟨last, reaches, ready⟩ := ih normal' there
    exact ⟨last, reaches.head (normal.step.trans running), ready⟩

/-- A machine in a state that leads to a value ends with it. -/
theorem Leads.finishes (leads : Leads globals Q m.state) (normal : m.Normal globals)
    (ends : ∀ s, Q s → s.frames = [] ∧ s.code.Settles) :
    ∃ enough after, Q after.state ∧
      ∀ fuel, enough ≤ fuel → Machine.steps fuel m = (.value ⟨after.term, after.locals⟩, after) := by
  obtain ⟨last, reaches, ready, holds⟩ := leads.reaches normal
  obtain ⟨bare, value⟩ := ends _ holds
  have same := last.tick_state
  obtain ⟨enough, steps⟩ := reaches.steps_of_last fun fuel => by
    rw [Machine.steps, ready.step, reduce_of_end (same ▸ bare) (same ▸ value)]
  exact ⟨enough, last.tick, same ▸ holds, steps⟩

theorem Leads.steps (leads : Leads globals Q m.state) (normal : m.Normal globals)
    (ends : ∀ s, Q s → s.frames = [] ∧ s.code.Settles) :
    ∃ enough value after, Q after.state ∧ ∀ fuel, enough ≤ fuel → Machine.steps fuel m = (.value value, after) := by
  obtain ⟨enough, after, holds, steps⟩ := leads.finishes normal ends
  exact ⟨enough, _, after, holds, steps⟩

/-- A machine in a state that leads to a fault comes to one. -/
theorem Leads.faults {cause : FaultCause} (leads : Leads globals (Faults globals cause) m.state)
    (normal : m.Normal globals) :
    ∃ enough fault after, fault.cause = cause ∧
      ∀ fuel, enough ≤ fuel → Machine.steps fuel m = (.fault fault, after) := by
  obtain ⟨last, reaches, ready, fails⟩ := leads.reaches normal
  obtain ⟨fault, after, failed, same⟩ := fails last.tick ready.tick last.tick_state
  obtain ⟨enough, steps⟩ := reaches.steps_of_last fun fuel => by
    rw [Machine.steps, ready.step, failed]
  exact ⟨enough, fault, after, same, steps⟩

end Runs

end State

end MixfixLambda
