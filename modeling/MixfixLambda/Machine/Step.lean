import MixfixLambda.Bind.Binder
import MixfixLambda.Machine.Arithmetic
import MixfixLambda.Machine.Spine

/-!
# The machine

Call-by-need reduction to weak head normal form. The machine works on a term with the thunks of its free
variables; what is to be done with the value waits on the spine. A thunk is evaluated at most once: while
that lasts it is marked as running, and its value takes its place. `Machine.step` is one reduction; a
fault leaves the machine as it was when it happened.
-/
namespace MixfixLambda

/-- What a run reports beside its result. -/
structure Options where
  /-- How many steps are listed. -/
  trace : Nat
  /-- Faults name the globals that led to them. -/
  backtrace : Bool
  /-- Faults have no place. -/
  test : Bool
  deriving DecidableEq, Repr, Inhabited

/-- When the interrupt flag is raised. -/
inductive Interrupt where
  | never
  | fromStart
  /-- As soon as so many bytes have been written to the output. -/
  | afterBytes (count : Nat)
  deriving DecidableEq, Repr, Inhabited

structure Stats where
  steps : Nat
  thunks : Nat
  updates : Nat
  /-- Numerals that were applied like functions. -/
  unfolds : Nat
  maxSpine : Nat
  deriving DecidableEq, Repr, Inhabited

def Stats.zero : Stats :=
  ⟨0, 0, 0, 0, 0⟩

def Stats.render (s : Stats) : String :=
  toString s.steps ++ " steps, " ++ toString s.thunks ++ " thunks, " ++ toString s.updates
    ++ " updates, " ++ toString s.unfolds ++ " numeral unfolds, spine depth " ++ toString s.maxSpine

/-- A term in weak head normal form with the thunks of its free variables. -/
structure Value where
  term : Term
  locals : Env
  deriving DecidableEq, Repr, Inhabited

def Value.int? (v : Value) : Option Int :=
  match v.term with
  | .int value => some value
  | _ => none

structure Machine where
  globals : Array Global
  /-- The thunks of the globals that are not values, as far as they have been needed. -/
  constants : Array (Option Nat)
  heap : Heap
  streams : Streams
  /-- Bytes go to the error stream. -/
  aborting : Bool
  interrupt : Interrupt
  options : Options
  stats : Stats
  spine : Spine
  term : Term
  locals : Env
  backtrace : Backtrace
  /-- The steps that are listed. -/
  traced : Array String
  deriving Repr

/-- What one step comes to. -/
inductive StepResult where
  | running (machine : Machine)
  | finished (value : Value) (machine : Machine)
  | faulted (fault : Fault) (machine : Machine)

namespace Machine

/-- A machine for the given globals. -/
def start (globals : Array Global) (streams : Streams) (interrupt : Interrupt) (options : Options) :
    Machine :=
  { globals
    constants := Array.replicate globals.size none
    heap := #[]
    streams
    aborting := false
    interrupt
    options
    stats := .zero
    spine := .empty
    term := .int 0
    locals := []
    backtrace := .empty
    traced := #[] }

/-- Steps between two looks at the interrupt flag. -/
def interruptPoll : Nat :=
  4096

/-- `\x -> x` -/
def identity : Term :=
  .lam (.synthetic "x") (Builtin.v 0 "x")

/-- `\f x -> x` -/
def zero : Term :=
  .lams [.synthetic "f", .synthetic "x"] (Builtin.v 0 "x")

/-- `\m f x -> f (m f x)` -/
def succ : Term :=
  .lams [.synthetic "m", .synthetic "f", .synthetic "x"]
    (.app (Builtin.v 1 "f") (.applyAll (Builtin.v 2 "m") [Builtin.v 1 "f", Builtin.v 0 "x"]))

/-- A fault at a tag if that is written in the module, else at the newest reference that is. -/
def faultAt (m : Machine) (cause : FaultCause) (tag : Option Tag) : Fault :=
  let place := (tag.filter (·.origin == .module)).or m.backtrace.moduleTag?
  { cause
    span := if m.options.test then none else place.map Tag.span
    backtrace := if m.options.backtrace then m.backtrace.names else [] }

def fail (m : Machine) (cause : FaultCause) (tag : Option Tag) : StepResult :=
  .faulted (m.faultAt cause tag) m

/-- Puts a closure onto the heap. -/
def alloc (m : Machine) (closure : Closure) : Nat × Machine :=
  (m.heap.size, { m with heap := m.heap.push closure })

def countThunk (m : Machine) : Machine :=
  { m with stats := { m.stats with thunks := m.stats.thunks + 1 } }

def countUpdate (m : Machine) : Machine :=
  { m with stats := { m.stats with updates := m.stats.updates + 1 } }

/-- Replaces a thunk by the value that the machine holds. -/
def updateThunk (m : Machine) (thunk : Nat) : Machine :=
  let m := m.countUpdate
  { m with heap := m.heap.modify thunk (·.update m.term m.locals) }

/-- The thunk of an argument. A variable brings its own thunk. -/
def delay (m : Machine) (term : Term) : Except (InternalFault × Tag) Nat × Machine :=
  let suspend (locals : Env) :=
    let (thunk, m) := m.countThunk.alloc (Closure.of term locals m.backtrace)
    (.ok thunk, m)
  match term with
  | .var depth tag =>
    match m.locals[depth]? with
    | some thunk => (.ok thunk, m)
    | none => (.error (.unboundLocal tag.text, tag), m)
  | .int _ | .builtin .. | .global .. => suspend []
  | .lam .. | .app .. => suspend m.locals

/-- Goes on with a thunk. One that has no value yet is marked as running and waits for its value. -/
def enter (m : Machine) (thunk : Nat) : StepResult :=
  let closure := m.heap.getD thunk default
  match closure.state with
  | .running => m.fail .loop none
  | .done =>
    .running { m with
      term := closure.term, locals := closure.locals, backtrace := closure.backtrace }
  | .pending =>
    .running { m with
      term := closure.term, locals := closure.locals, backtrace := closure.backtrace
      heap := m.heap.modify thunk fun c => { c with state := .running }
      spine := m.spine.push (.update thunk) }

/-- The thunk of a global that is no value, which all references to it share. -/
def constant (m : Machine) (index : Nat) (term : Term) : Nat × Machine :=
  match m.constants[index]? with
  | some (some thunk) => (thunk, m)
  | _ =>
    let (thunk, m) := m.countThunk.alloc (Closure.of term [] m.backtrace)
    (thunk, { m with constants := m.constants.set! index (some thunk) })

/-- Lets the streams do something. The machine lets go of them meanwhile, so that they can be changed in
place. -/
def onStreams (m : Machine) (work : Streams → α × Streams) : α × Machine :=
  let streams := m.streams
  let m := { m with streams := .idle }
  let (answer, streams) := work streams
  (answer, { m with streams })

/-- The result of an operation on the values of its arguments. -/
def primitive (m : Machine) (operation : Builtin) (values : List Int) :
    Except FaultCause Term × Machine :=
  match operation, values with
  | .put, [value] =>
    if 0 ≤ value ∧ value < 256 then
      let target := if m.aborting then .errors else .output
      let (answer, m) := m.onStreams (·.write target (UInt8.ofNat value.toNat))
      match answer with
      | .ok () => (.ok identity, m)
      | .error error => (.error (.stream error), m)
    else (.error (.byteRange value), m)
  | .get, [index] =>
    let (answer, m) := m.onStreams (·.get index)
    match answer with
    | .ok value => (.ok (.int value), m)
    | .error error => (.error (.stream error), m)
  | .put, _ | .get, _ | .abort, _ => (.error (.internal (.wrongCount operation values.length)), m)
  | _, [a, b] => (operation.binary a b, m)
  | _, _ => (.error (.internal (.wrongCount operation values.length)), m)

/-- The machine holds a value that takes no argument. -/
def settle (m : Machine) : StepResult :=
  match m.spine.top? with
  | none => .finished ⟨m.term, m.locals⟩ m
  | some (.arg _) => m.fail (.internal .leftArgument) none
  | some (.update thunk) => .running ({ m with spine := m.spine.pop }.updateThunk thunk)
  | some (.force .abort tag _ _ backtrace) =>
    let (_, m) := m.onStreams (·.flush .errors)
    { m with spine := m.spine.pop, backtrace }.fail .abort (some tag)
  | some (.force operation tag values pending backtrace) =>
    let m := { m with spine := m.spine.pop }
    match m.term with
    | .int value =>
      let values := values ++ [value]
      match pending with
      | next :: pending =>
        { m with spine := m.spine.push (.force operation tag values pending backtrace) }.enter next
      | [] =>
        match { m with backtrace }.primitive operation values with
        | (.ok term, m) => .running { m with term, locals := [] }
        | (.error cause, m) => m.fail cause (some tag)
    | _ => m.fail (.typeMismatch operation) (some tag)

/-- The variables `a1`, `a2`, .. that hold the arguments an operation has got so far. -/
def heldArguments (count : Nat) : List Term :=
  (List.range count).map fun i => Builtin.v (count - 1 - i) ("a" ++ toString (i + 1))

/-- An operation short of arguments is a value only where a thunk waits for it. The thunk then holds the
operation applied to what it has. -/
def partialApplication (m : Machine) (operation : Builtin) (tag : Tag) (available : Nat) :
    StepResult :=
  match (m.spine.drop available).top? with
  | some (.update _) =>
    let (arguments, below) := m.spine.popArguments available
    let m := { m with spine := below.pop }
    match below.top? with
    | some (.update thunk) =>
      let m := { m with
        term := .applyAll (.builtin operation tag) (heldArguments arguments.length)
        locals := arguments.reverse }
      .running (m.updateThunk thunk)
    | _ => m.fail (.internal .lostUpdate) (some tag)
  | some (.force waiting waitingTag ..) => m.fail (.typeMismatch waiting) (some waitingTag)
  | _ => m.fail (.missingArgument operation) (some tag)

/-- An operation with all of its arguments evaluates them in turn. `abort` first sends what has been
written on its way. -/
def call (m : Machine) (operation : Builtin) (tag : Tag) (arguments : List Nat) : StepResult :=
  let m :=
    if operation = .abort then
      let (_, m) := m.onStreams (·.flush .output)
      { m with aborting := true }
    else m
  match arguments with
  | [] => m.fail (.missingArgument operation) (some tag)
  | first :: pending =>
    { m with spine := m.spine.push (.force operation tag [] pending m.backtrace) }.enter first

/-- A numeral that is applied: `n` times its first argument to its second one. -/
def unfold (m : Machine) (value : Int) : Machine :=
  let m := { m with locals := [], stats := { m.stats with unfolds := m.stats.unfolds + 1 } }
  if value > 0 then
    let (thunk, m) := m.alloc (Closure.of (.int (value - 1)) [] m.backtrace)
    { m with spine := m.spine.push (.arg thunk), term := succ }
  else { m with term := zero }

/-- One reduction of the term that the machine works on. -/
def reduce (m : Machine) : StepResult :=
  match m.term with
  | .app left right =>
    match m.delay right with
    | (.ok thunk, m) => .running { m with spine := m.spine.push (.arg thunk), term := left }
    | (.error (fault, tag), m) => m.fail (.internal fault) (some tag)
  | .lam _ body =>
    match m.spine.top? with
    | some (.arg thunk) =>
      .running { m with spine := m.spine.pop, locals := thunk :: m.locals, term := body }
    | _ => m.settle
  | .var depth tag =>
    match m.locals[depth]? with
    | some thunk => m.enter thunk
    | none => m.fail (.internal (.unboundLocal tag.text)) (some tag)
  | .global index tag =>
    let m := { m with backtrace := m.backtrace.push tag }
    match m.globals[index]? with
    | none => m.fail (.internal (.unknownGlobal tag.text)) (some tag)
    | some definition =>
      if definition.term.isValue then .running { m with term := definition.term, locals := [] }
      else
        let (thunk, m) := m.constant index definition.term
        m.enter thunk
  | .int value =>
    match m.spine.top? with
    | some (.arg _) => .running (m.unfold value)
    | _ => m.settle
  | .builtin operation tag =>
    let available := m.spine.available
    if available < operation.arity then m.partialApplication operation tag available
    else
      let (arguments, spine) := m.spine.popArguments operation.arity
      { m with spine }.call operation tag arguments

/-- Counts a step, and lists it if it is among the first. -/
def tick (m : Machine) : Machine :=
  let stats := { m.stats with
    steps := m.stats.steps + 1
    maxSpine := max m.stats.maxSpine m.spine.depth }
  let m := { m with stats }
  if m.traced.size < m.options.trace then
    let line := toString m.stats.steps ++ " " ++ toString m.spine.depth ++ " " ++ m.term.describe
    { m with traced := m.traced.push line }
  else m

def isRaised (m : Machine) : Bool :=
  match m.interrupt with
  | .never => false
  | .fromStart => true
  | .afterBytes count => count ≤ m.streams.output.stored.size

/-- Whether the machine looks at the interrupt flag now and finds it raised. -/
def isInterrupted (m : Machine) : Bool :=
  m.stats.steps % interruptPoll = 0 && m.isRaised

def step (m : Machine) : StepResult :=
  let m := m.tick
  if m.isInterrupted then m.fail .interrupted none else m.reduce

end Machine

end MixfixLambda
