import MixfixLambda.Machine.Step

/-!
# Transition rules

The step function of the machine, said once as rules over what its steps read and change: `Demands` says
which thunk a step goes on with, `Enters` what going on with a thunk does, `Moves` what a step comes to,
and `Fails` when and how there is none. `step_obeys` is the inversion that every property of runs is
derived from.
-/
namespace MixfixLambda

/-- The closure of a thunk. -/
def Heap.closureAt (h : Heap) (thunk : Nat) : Closure :=
  h.getD thunk default

namespace Heap

/-- Nothing is kept behind the end of the heap. -/
theorem closureAt_of_size_le {h : Heap} {thunk : Nat} (beyond : h.size ≤ thunk) :
    closureAt h thunk = default := by
  simp [closureAt, Array.getElem?_eq_none beyond]

theorem closureAt_push (h : Heap) (c : Closure) (thunk : Nat) :
    closureAt (h.push c) thunk = if thunk = h.size then c else closureAt h thunk := by
  simp only [closureAt, Array.getD_eq_getD_getElem?, Array.getElem?_push]
  split <;> rfl

theorem closureAt_push_lt {h : Heap} {thunk : Nat} (old : thunk < h.size) (c : Closure) :
    closureAt (h.push c) thunk = closureAt h thunk := by
  rw [closureAt_push, if_neg (by omega)]

theorem closureAt_modify (h : Heap) (changed : Nat) (f : Closure → Closure) (thunk : Nat) :
    closureAt (h.modify changed f) thunk =
      if changed = thunk ∧ thunk < h.size then f (closureAt h thunk) else closureAt h thunk := by
  by_cases inside : thunk < h.size
  · by_cases same : changed = thunk <;> simp [closureAt, Array.getElem_modify, inside, same]
  · rw [if_neg (fun both => inside both.2), closureAt_of_size_le (by simpa using inside),
      closureAt_of_size_le (by simpa using inside)]

end Heap

/-- What the steps of a machine read and change; counters of steps, listed steps, backtraces and options
have no influence on the rest. -/
structure Config where
  globals : Array Global
  interrupt : Interrupt
  streams : Streams
  constants : Array (Option Nat)
  heap : Heap
  frames : List Frame
  term : Term
  locals : Env
  /-- Thunks that have been made for arguments and globals. -/
  thunks : Nat
  /-- Thunks that have been replaced by their values. -/
  updates : Nat

def Machine.config (m : Machine) : Config where
  globals := m.globals
  interrupt := m.interrupt
  streams := m.streams
  constants := m.constants
  heap := m.heap
  frames := m.spine.frames
  term := m.term
  locals := m.locals
  thunks := m.stats.thunks
  updates := m.stats.updates

namespace Term

/-- A variable is passed on with its own thunk. -/
def IsVar : Term → Prop
  | .var .. => True
  | _ => False

/-- The thunks that a suspended term keeps. -/
def captured (locals : Env) : Term → Env
  | .lam .. | .app .. => locals
  | _ => []

/-- A value that is complete without arguments. -/
def Settles : Term → Prop
  | .int _ | .lam .. => True
  | _ => False

theorem Settles.int_or_lam {t : Term} (value : t.Settles) :
    (∃ n, t = .int n) ∨ ∃ tag body, t = .lam tag body := by
  cases t with
  | int n => exact .inl ⟨n, rfl⟩
  | lam tag body => exact .inr ⟨tag, body, rfl⟩
  | _ => exact absurd value id

theorem Settles.not_isVar {t : Term} (value : t.Settles) : ¬ t.IsVar := by
  rcases value.int_or_lam with ⟨n, rfl⟩ | ⟨tag, body, rfl⟩
  · exact id
  · exact id

end Term

namespace Config

/-- The thunk is replaced by the value that the configuration holds. -/
def updateThunk (c : Config) (thunk : Nat) : Config :=
  { c with heap := c.heap.modify thunk (·.update c.term c.locals), updates := c.updates + 1 }

/-- A new thunk that is counted. -/
def suspend (c : Config) (closure : Closure) : Config :=
  { c with heap := c.heap.push closure, thunks := c.thunks + 1 }

/-- What is on the spine beneath the arguments that it starts with. -/
def Waits (frames : List Frame) (arguments : List Nat) (below : List Frame) : Prop :=
  frames = arguments.map .arg ++ below

/-- The step goes on with a thunk, from the second configuration. -/
inductive Demands (c : Config) (thunk : Nat) : Config → Prop
  | lookup {depth : Nat} {tag : Tag} (focus : c.term = .var depth tag)
      (bound : c.locals[depth]? = some thunk) : Demands c thunk c
  | constant {index : Nat} {tag : Tag} {definition : Global} (focus : c.term = .global index tag)
      (found : c.globals[index]? = some definition) (lazy : definition.term.isValue = false)
      (known : c.constants[index]? = some (some thunk)) : Demands c thunk c
  | fresh {index : Nat} {tag : Tag} {definition : Global} {backtrace : Backtrace}
      (focus : c.term = .global index tag) (found : c.globals[index]? = some definition)
      (lazy : definition.term.isValue = false)
      (unknown : ∀ thunk, c.constants[index]? ≠ some (some thunk)) (new : thunk = c.heap.size) :
      Demands c thunk { c.suspend (Closure.of definition.term [] backtrace) with
        constants := c.constants.set! index (some thunk) }
  | next {value : Int} {operation : Builtin} {tag : Tag} {values : List Int} {pending : List Nat}
      {backtrace : Backtrace} {below : List Frame} (focus : c.term = .int value)
      (top : c.frames = .force operation tag values (thunk :: pending) backtrace :: below)
      (strict : operation ≠ .abort) :
      Demands c thunk { c with
        frames := .force operation tag (values ++ [value]) pending backtrace :: below }
  | call {operation : Builtin} {tag : Tag} {pending : List Nat} {backtrace : Backtrace}
      {below : List Frame} {streams : Streams} (focus : c.term = .builtin operation tag)
      (top : Waits c.frames (thunk :: pending) below)
      (enough : pending.length + 1 = operation.arity)
      (quiet : operation ≠ .abort → streams = c.streams) :
      Demands c thunk { c with
        streams, frames := .force operation tag [] pending backtrace :: below }

/-- The machine works on a thunk: a value is taken as it is, anything else is evaluated in place. -/
inductive Enters (c : Config) (thunk : Nat) : Config → Prop
  | done (evaluated : (c.heap.closureAt thunk).state = .done) :
      Enters c thunk { c with
        term := (c.heap.closureAt thunk).term, locals := (c.heap.closureAt thunk).locals }
  | pending (waiting : (c.heap.closureAt thunk).state = .pending) :
      Enters c thunk { c with
        term := (c.heap.closureAt thunk).term, locals := (c.heap.closureAt thunk).locals
        heap := c.heap.modify thunk fun closure => { closure with state := .running }
        frames := .update thunk :: c.frames }

open Machine in
/-- What one step comes to. -/
inductive Moves (c : Config) : Config → Prop
  | enter {thunk : Nat} {middle after : Config} (demand : Demands c thunk middle)
      (entry : Enters middle thunk after) : Moves c after
  | share {left : Term} {depth thunk : Nat} {tag : Tag} (focus : c.term = .app left (.var depth tag))
      (bound : c.locals[depth]? = some thunk) :
      Moves c { c with term := left, frames := .arg thunk :: c.frames }
  | delay {left right : Term} {backtrace : Backtrace} (focus : c.term = .app left right)
      (complex : ¬ right.IsVar) :
      Moves c { c.suspend (Closure.of right (right.captured c.locals) backtrace) with
        term := left, frames := .arg c.heap.size :: c.frames }
  | apply {tag : Tag} {body : Term} {thunk : Nat} {below : List Frame} (focus : c.term = .lam tag body)
      (top : c.frames = .arg thunk :: below) :
      Moves c { c with term := body, locals := thunk :: c.locals, frames := below }
  | update {thunk : Nat} {below : List Frame} (value : c.term.Settles)
      (top : c.frames = .update thunk :: below) :
      Moves c { c.updateThunk thunk with frames := below }
  | compute {value a b : Int} {operation : Builtin} {tag : Tag} {values : List Int}
      {backtrace : Backtrace} {below : List Frame} {result : Term} (focus : c.term = .int value)
      (top : c.frames = .force operation tag values [] backtrace :: below)
      (both : values ++ [value] = [a, b]) (two : operation.arity = 2)
      (answer : operation.binary a b = .ok result) :
      Moves c { c with term := result, locals := [], frames := below }
  | talk {value : Int} {operation : Builtin} {tag : Tag} {backtrace : Backtrace} {below : List Frame}
      {streams : Streams} {result : Term} (focus : c.term = .int value)
      (top : c.frames = .force operation tag [] [] backtrace :: below)
      (answer : operation = .put ∧ result = identity ∨ operation = .get ∧ ∃ n, result = .int n) :
      Moves c { c with streams, term := result, locals := [], frames := below }
  | unfold {index : Nat} {tag : Tag} {definition : Global} (focus : c.term = .global index tag)
      (found : c.globals[index]? = some definition) (value : definition.term.isValue = true) :
      Moves c { c with term := definition.term, locals := [] }
  | iterate {value : Int} {thunk : Nat} {backtrace : Backtrace} {below : List Frame}
      (focus : c.term = .int value) (positive : 0 < value) (top : c.frames = .arg thunk :: below) :
      Moves c { c with
        heap := c.heap.push (Closure.of (.int (value - 1)) [] backtrace), locals := []
        term := succ, frames := .arg c.heap.size :: c.frames }
  | vanish {value : Int} {thunk : Nat} {below : List Frame} (focus : c.term = .int value)
      (exhausted : value ≤ 0) (top : c.frames = .arg thunk :: below) :
      Moves c { c with term := zero, locals := [] }
  | hold {operation : Builtin} {tag : Tag} {arguments : List Nat} {thunk : Nat} {below : List Frame}
      (focus : c.term = .builtin operation tag)
      (top : Waits c.frames arguments (.update thunk :: below))
      (short : arguments.length < operation.arity) :
      Moves c ({ c with
        term := .applyAll (.builtin operation tag) (heldArguments arguments.length)
        locals := arguments.reverse, frames := below : Config}.updateThunk thunk)

/-- How a step fails, and the configuration that is left. -/
inductive Fails (c : Config) : FaultCause → Config → Prop
  | interrupted (raised : c.interrupt ≠ .never) : Fails c .interrupted c
  | unbound {depth : Nat} {tag : Tag}
      (focus : c.term = .var depth tag ∨ ∃ left, c.term = .app left (.var depth tag))
      (missing : c.locals[depth]? = none) : Fails c (.internal (.unboundLocal tag.text)) c
  | unknown {index : Nat} {tag : Tag} (focus : c.term = .global index tag)
      (missing : c.globals[index]? = none) : Fails c (.internal (.unknownGlobal tag.text)) c
  | loop {thunk : Nat} {middle : Config} (demand : Demands c thunk middle)
      (running : (middle.heap.closureAt thunk).state = .running) : Fails c .loop middle
  | abort {tag : Tag} {values : List Int} {pending : List Nat} {backtrace : Backtrace}
      {below : List Frame} {streams : Streams} (value : c.term.Settles)
      (top : c.frames = .force .abort tag values pending backtrace :: below) :
      Fails c .abort { c with streams, frames := below }
  | mismatch {operation : Builtin} {tag : Tag} {values : List Int} {pending : List Nat}
      {backtrace : Backtrace} {below : List Frame} (value : c.term.Settles)
      (function : ∀ n, c.term ≠ .int n)
      (top : c.frames = .force operation tag values pending backtrace :: below) :
      Fails c (.typeMismatch operation) { c with frames := below }
  | partialOperand {operation waiting : Builtin} {tag waitingTag : Tag} {arguments : List Nat}
      {values : List Int} {pending : List Nat} {backtrace : Backtrace} {below : List Frame}
      (focus : c.term = .builtin operation tag)
      (top : Waits c.frames arguments (.force waiting waitingTag values pending backtrace :: below))
      (short : arguments.length < operation.arity) : Fails c (.typeMismatch waiting) c
  | partialResult {operation : Builtin} {tag : Tag} {arguments : List Nat}
      (focus : c.term = .builtin operation tag) (top : Waits c.frames arguments [])
      (short : arguments.length < operation.arity) : Fails c (.missingArgument operation) c
  | compute {value a b : Int} {operation : Builtin} {tag : Tag} {values : List Int}
      {backtrace : Backtrace} {below : List Frame} {cause : FaultCause} (focus : c.term = .int value)
      (top : c.frames = .force operation tag values [] backtrace :: below)
      (both : values ++ [value] = [a, b]) (two : operation.arity = 2)
      (answer : operation.binary a b = .error cause) : Fails c cause { c with frames := below }
  | talk {value : Int} {operation : Builtin} {tag : Tag} {backtrace : Backtrace} {below : List Frame}
      {streams : Streams} {cause : FaultCause} (focus : c.term = .int value)
      (top : c.frames = .force operation tag [] [] backtrace :: below)
      (talks : operation = .put ∨ operation = .get)
      (refused : cause = .byteRange value ∨ ∃ error, cause = .stream error) :
      Fails c cause { c with streams, frames := below }
  | wrongCount {value : Int} {operation : Builtin} {tag : Tag} {values : List Int}
      {backtrace : Backtrace} {below : List Frame} (focus : c.term = .int value)
      (top : c.frames = .force operation tag values [] backtrace :: below)
      (wrong : values.length + 1 ≠ operation.arity) :
      Fails c (.internal (.wrongCount operation (values.length + 1))) { c with frames := below }

/-- A value with nothing left to do with it. -/
structure Halts (c : Config) (v : Value) : Prop where
  value : c.term.Settles
  bare : c.frames = []
  result : v = ⟨c.term, c.locals⟩

end Config

/-- The outcome of a step follows the rules. -/
def StepResult.Obeys (c : Config) : StepResult → Prop
  | .running m => c.Moves m.config
  | .finished v m => c.Halts v ∧ m.config = c
  | .faulted fault m => c.Fails fault.cause m.config

namespace Spine

/-- Taking arguments off a spine that has enough of them. -/
theorem popArguments_spec (count : Nat) (s : Spine) (enough : count ≤ s.available) :
    (s.popArguments count).1.length = count ∧
      s.frames = (s.popArguments count).1.map .arg ++ (s.popArguments count).2.frames := by
  induction count generalizing s with
  | zero => exact ⟨rfl, rfl⟩
  | succ count ih =>
    obtain ⟨frames, depth, length⟩ := s
    match frames with
    | [] => simp [available] at enough
    | .arg thunk :: rest =>
      have inner : count ≤ (pop ⟨.arg thunk :: rest, depth, length⟩).available := by
        simpa [available, pop, Frame.isArg, List.takeWhile_cons] using enough
      obtain ⟨taken, split⟩ := ih _ inner
      simp only [pop] at taken split
      simp only [popArguments, top?, List.head?_cons, pop]
      exact ⟨by simp [taken], by rw [List.map_cons, List.cons_append, ← split]⟩
    | .update thunk :: rest => simp [available, Frame.isArg] at enough
    | .force .. :: rest => simp [available, Frame.isArg] at enough

theorem frames_of_top? {s : Spine} {frame : Frame} (top : s.top? = some frame) :
    s.frames = frame :: s.pop.frames := by
  obtain ⟨frames, depth, length⟩ := s
  match frames with
  | [] => cases top
  | first :: rest =>
    cases top
    rfl

/-- A spine is the arguments that it starts with, and something that does not start with one. -/
theorem available_split (s : Spine) :
    ∃ arguments below, Config.Waits s.frames arguments below ∧ arguments.length = s.available ∧
      (∀ thunk, below.head? ≠ some (.arg thunk)) := by
  simp only [available]
  generalize s.frames = frames
  induction frames with
  | nil => exact ⟨[], [], rfl, rfl, by simp⟩
  | cons frame rest ih =>
    cases frame with
    | arg thunk =>
      obtain ⟨arguments, below, split, count, stops⟩ := ih
      refine ⟨thunk :: arguments, below, ?_, ?_, stops⟩
      · simp only [Config.Waits] at split ⊢
        rw [split, List.map_cons, List.cons_append]
      · simp [List.takeWhile_cons, Frame.isArg, count]
    | update thunk => exact ⟨[], .update thunk :: rest, rfl, by simp [Frame.isArg], by simp⟩
    | force operation tag values pending backtrace =>
      exact ⟨[], _, rfl, by simp [Frame.isArg], by simp⟩

end Spine

theorem Config.Waits.unique {frames below below' : List Frame} {arguments arguments' : List Nat}
    (split : Waits frames arguments below) (split' : Waits frames arguments' below')
    (same : arguments.length = arguments'.length) : arguments = arguments' ∧ below = below' := by
  have parts := List.append_inj (split.symm.trans split') (by simpa using same)
  refine ⟨?_, parts.2⟩
  exact (List.map_inj_right fun _ _ => Frame.arg.inj).mp parts.1

namespace Machine

open Config

@[simp]
theorem tick_config (m : Machine) : m.tick.config = m.config := by
  unfold tick
  dsimp only
  split <;> rfl

/-- Going on with a thunk from a configuration that a step comes to. -/
theorem enter_obeys {c : Config} {m : Machine} {thunk : Nat} (demand : c.Demands thunk m.config) :
    (m.enter thunk).Obeys c := by
  unfold enter
  dsimp only
  split
  · next running => exact .loop demand running
  · next evaluated => exact .enter demand (.done evaluated)
  · next waiting => exact .enter demand (.pending waiting)

/-- Whatever a stream does, the rest of the machine stays. -/
theorem onStreams_config {α : Type} (m : Machine) (work : Streams → α × Streams) :
    (m.onStreams work).2.config = { m.config with streams := (work m.streams).2 } :=
  rfl

/-- What an operation other than `abort` answers to the values that were collected for it. -/
inductive Answers (m : Machine) (operation : Builtin) (values : List Int) :
    Except FaultCause Term × Machine → Prop
  | compute {a b : Int} (both : values = [a, b]) (two : operation.arity = 2) :
      Answers m operation values (operation.binary a b, m)
  | accept {value : Int} {after : Machine} {streams : Streams} {result : Term} (one : values = [value])
      (answer : operation = .put ∧ result = identity ∨ operation = .get ∧ ∃ n, result = .int n)
      (same : after.config = { m.config with streams }) : Answers m operation values (.ok result, after)
  | refuse {value : Int} {after : Machine} {streams : Streams} {cause : FaultCause}
      (one : values = [value]) (talks : operation = .put ∨ operation = .get)
      (refused : cause = .byteRange value ∨ ∃ error, cause = .stream error)
      (same : after.config = { m.config with streams }) : Answers m operation values (.error cause, after)
  | wrongCount (wrong : values.length ≠ operation.arity) :
      Answers m operation values (.error (.internal (.wrongCount operation values.length)), m)

theorem primitive_put (m : Machine) (value : Int) : m.Answers .put [value] (m.primitive .put [value]) := by
  unfold primitive
  dsimp only
  split
  · split
    · exact .accept rfl (.inl ⟨rfl, rfl⟩) (onStreams_config ..)
    · exact .refuse rfl (.inl rfl) (.inr ⟨_, rfl⟩) (onStreams_config ..)
  · exact .refuse rfl (.inl rfl) (.inl rfl) rfl

theorem primitive_get (m : Machine) (value : Int) : m.Answers .get [value] (m.primitive .get [value]) := by
  unfold primitive
  dsimp only
  split
  · exact .accept rfl (.inr ⟨rfl, _, rfl⟩) (onStreams_config ..)
  · exact .refuse rfl (.inr rfl) (.inr ⟨_, rfl⟩) (onStreams_config ..)

theorem arity_eq_two {operation : Builtin} (notPut : operation ≠ .put) (notGet : operation ≠ .get)
    (strict : operation ≠ .abort) : operation.arity = 2 := by
  cases operation <;> first | rfl | contradiction

theorem primitive_answers (m : Machine) (operation : Builtin) (values : List Int)
    (strict : operation ≠ .abort) : m.Answers operation values (m.primitive operation values) := by
  unfold primitive
  split
  · exact primitive_put m _
  · exact primitive_get m _
  · next many =>
    refine .wrongCount fun one => ?_
    obtain ⟨value, rfl⟩ := List.length_eq_one_iff.mp one
    exact many value rfl
  · next many =>
    refine .wrongCount fun one => ?_
    obtain ⟨value, rfl⟩ := List.length_eq_one_iff.mp one
    exact many value rfl
  · exact absurd rfl strict
  · next notPut notGet _ => exact .compute rfl (arity_eq_two notPut notGet strict)
  · next notPut notGet _ noPair _ _ =>
    refine .wrongCount fun two => ?_
    rw [arity_eq_two notPut notGet strict] at two
    match values, two with
    | [a, b], _ => exact noPair a b rfl

/-- The last value of an operation other than `abort` has been collected. -/
theorem primitive_obeys {c : Config} {m : Machine} {value : Int} {operation : Builtin} {tag : Tag}
    {values : List Int} {backtrace : Backtrace} {below : List Frame} (focus : c.term = .int value)
    (top : c.frames = .force operation tag values [] backtrace :: below)
    (strict : operation ≠ .abort) (rest : m.config = { c with frames := below }) :
    (match m.primitive operation (values ++ [value]) with
      | (.ok term, m) => StepResult.running { m with term, locals := [] }
      | (.error cause, m) => m.fail cause (some tag)).Obeys c := by
  have answers := primitive_answers m operation (values ++ [value]) strict
  generalize m.primitive operation (values ++ [value]) = answer at answers ⊢
  cases answers with
  | @compute a b both two =>
    cases result : operation.binary a b with
    | ok term =>
      change c.Moves { m.config with term, locals := [] }
      rw [rest]
      exact .compute focus top both two result
    | error cause =>
      change c.Fails cause m.config
      rw [rest]
      exact .compute focus top both two result
  | @accept last after streams term one answer same =>
    obtain ⟨rfl, -⟩ : values = [] ∧ value = last := by simpa [List.append_eq_singleton_iff] using one
    change c.Moves { after.config with term, locals := [] }
    rw [same, rest]
    exact .talk focus top answer
  | @refuse last after streams cause one talks refused same =>
    obtain ⟨rfl, rfl⟩ : values = [] ∧ value = last := by simpa [List.append_eq_singleton_iff] using one
    change c.Fails cause after.config
    rw [same, rest]
    exact .talk focus top talks refused
  | wrongCount wrong =>
    rw [List.length_append, List.length_singleton] at wrong ⊢
    change c.Fails _ m.config
    rw [rest]
    exact .wrongCount focus top wrong

theorem settle_obeys (m : Machine) (value : m.term.Settles)
    (bare : ∀ thunk, m.spine.top? ≠ some (.arg thunk)) : m.settle.Obeys m.config := by
  unfold settle
  split
  · next top =>
    refine ⟨⟨value, ?_, rfl⟩, rfl⟩
    exact List.head?_eq_none_iff.mp top
  · next thunk top => exact absurd top (bare thunk)
  · next thunk top => exact .update value (Spine.frames_of_top? top)
  · next tag values pending backtrace top => exact .abort value (Spine.frames_of_top? top)
  · next operation tag values pending backtrace strict top =>
    have frames := Spine.frames_of_top? top
    cases pending with
    | cons next pending =>
      dsimp only
      split
      · next n focus => exact enter_obeys (.next focus frames strict)
      · next function => exact .mismatch value function frames
    | nil =>
      dsimp only
      split
      · next n focus => exact primitive_obeys focus frames strict rfl
      · next function => exact .mismatch value function frames

/-- An argument is passed on, or a thunk is made for it. -/
theorem apply_obeys (m : Machine) {left right : Term} (focus : m.term = .app left right) :
    (match m.delay right with
      | (.ok thunk, m) => StepResult.running { m with spine := m.spine.push (.arg thunk), term := left }
      | (.error (fault, tag), m) => m.fail (.internal fault) (some tag)).Obeys m.config := by
  unfold delay
  cases right with
  | var depth tag =>
    cases bound : m.locals[depth]? with
    | some thunk =>
      dsimp only
      rw [bound]
      exact Moves.share focus bound
    | none =>
      dsimp only
      rw [bound]
      exact Fails.unbound (.inr ⟨left, focus⟩) bound
  | int value => exact .delay focus id
  | builtin operation tag => exact .delay focus id
  | global index tag => exact .delay focus id
  | lam tag body => exact .delay focus id
  | app left right => exact .delay focus id

theorem constant_obeys {c : Config} (m : Machine) {index : Nat} {tag : Tag} {definition : Global}
    (same : m.config = c) (focus : c.term = .global index tag)
    (found : c.globals[index]? = some definition) (lazy : definition.term.isValue = false) :
    ((m.constant index definition.term).2.enter (m.constant index definition.term).1).Obeys c := by
  subst same
  unfold constant
  split
  · next thunk known => exact enter_obeys (.constant focus found lazy known)
  · next unknown => exact enter_obeys (.fresh focus found lazy unknown rfl)

/-- A numeral in front of an argument. -/
theorem unfold_obeys (m : Machine) {value : Int} {thunk : Nat} (focus : m.term = .int value)
    (top : m.spine.top? = some (.arg thunk)) : (StepResult.running (m.unfold value)).Obeys m.config := by
  have frames := Spine.frames_of_top? top
  unfold unfold
  dsimp only
  split
  · next positive => exact .iterate focus positive frames
  · next exhausted => exact .vanish focus (by omega) frames

theorem partialApplication_obeys (m : Machine) {operation : Builtin} {tag : Tag}
    (focus : m.term = .builtin operation tag) (short : m.spine.available < operation.arity) :
    (m.partialApplication operation tag m.spine.available).Obeys m.config := by
  obtain ⟨arguments, below, split, count, stops⟩ := m.spine.available_split
  have popped := Spine.popArguments_spec m.spine.available m.spine (Nat.le_refl _)
  obtain ⟨same, rest⟩ := Config.Waits.unique popped.2 split (popped.1.trans count.symm)
  have beneath : (m.spine.drop m.spine.available).top? = below.head? := by
    simp [Spine.drop, Spine.top?, show m.spine.frames = _ from split, ← count]
  have above : (m.spine.popArguments m.spine.available).2.top? = below.head? := by
    rw [Spine.top?, rest]
  rw [← count] at short
  unfold partialApplication
  rw [beneath]
  cases below with
  | nil => exact .partialResult focus split short
  | cons frame below =>
    cases frame with
    | arg thunk => exact absurd rfl (stops thunk)
    | force waiting waitingTag values pending backtrace => exact .partialOperand focus split short
    | update thunk =>
      dsimp only [List.head?_cons] at above ⊢
      rw [above, same]
      have frames := Spine.frames_of_top? above
      rw [rest, List.cons.injEq] at frames
      have move := Moves.hold (c := m.config) focus split short
      rw [frames.2] at move
      exact move

theorem call_obeys {c : Config} (m : Machine) {operation : Builtin} {tag : Tag} {arguments : List Nat}
    {below : List Frame} (focus : c.term = .builtin operation tag) (top : Waits c.frames arguments below)
    (enough : arguments.length = operation.arity) (rest : m.config = { c with frames := below }) :
    (m.call operation tag arguments).Obeys c := by
  match arguments, enough with
  | [], enough => exact absurd enough.symm (Nat.ne_of_gt operation.arity_pos)
  | first :: pending, enough =>
    unfold call
    split
    · next aborts =>
      refine enter_obeys ?_
      change c.Demands first { m.config with
        streams := (m.streams.flush .output).2
        frames := .force operation tag [] pending m.backtrace :: m.config.frames }
      rw [rest]
      exact .call focus top enough (fun strict => absurd aborts strict)
    · next strict =>
      refine enter_obeys ?_
      change c.Demands first { m.config with
        frames := .force operation tag [] pending m.backtrace :: m.config.frames }
      rw [rest]
      exact .call focus top enough (fun _ => rfl)

theorem reduce_obeys (m : Machine) : m.reduce.Obeys m.config := by
  unfold reduce
  split
  · next left right focus => exact apply_obeys m focus
  · next tag body focus =>
    split
    · next thunk top => exact .apply focus (Spine.frames_of_top? top)
    · next bare => exact settle_obeys m (focus ▸ trivial) bare
  · next depth tag focus =>
    split
    · next thunk bound => exact enter_obeys (.lookup focus bound)
    · next missing => exact .unbound (.inl focus) missing
  · next index tag focus =>
    dsimp only
    split
    · next missing => exact .unknown focus missing
    · next definition found =>
      split
      · next value => exact .unfold focus found value
      · next lazy => exact constant_obeys _ rfl focus found (by simpa using lazy)
  · next value focus =>
    split
    · next thunk top => exact unfold_obeys m focus top
    · next bare => exact settle_obeys m (focus ▸ trivial) bare
  · next operation tag focus =>
    dsimp only
    split
    · next short => exact partialApplication_obeys m focus short
    · next enough =>
      obtain ⟨count, split⟩ := Spine.popArguments_spec operation.arity m.spine (by omega)
      exact call_obeys _ focus split count rfl

theorem isInterrupted_raised {m : Machine} (interrupted : m.isInterrupted = true) :
    m.interrupt ≠ .never := by
  intro never
  simp [isInterrupted, isRaised, never] at interrupted

/-- The inversion of a step. -/
theorem step_obeys (m : Machine) : m.step.Obeys m.config := by
  unfold step
  dsimp only
  rw [← tick_config]
  split
  · next interrupted => exact .interrupted (isInterrupted_raised interrupted)
  · exact reduce_obeys m.tick

end Machine

end MixfixLambda
