import Mathlib.Logic.Function.Basic
import MixfixLambda.Proofs.Machine.Abort
import MixfixLambda.Proofs.Machine.Evaluation

/-!
# A machine inside another one

What a machine does does not depend on where its thunks are, nor on what waits beneath its frames. A heap may have
a gap, that is some thunks more than another one, and the thunks behind the gap are then further up. A machine with
such a heap and with more frames on its spine takes the same steps, as long as the other one goes on, and leaves
the thunks in the gap and the frames beneath as they are.
-/
namespace MixfixLambda

/-- Where a heap has thunks that another one does not have. -/
structure Gap where
  start : Nat
  width : Nat

namespace Gap

variable {g : Gap} {kept : Nat → Closure} {h h' : Heap} {thunk : Nat}

/-- Where a thunk is in the heap with the gap. -/
def past (g : Gap) (thunk : Nat) : Nat :=
  if thunk < g.start then thunk else thunk + g.width

def closure (g : Gap) (c : Closure) : Closure :=
  { c with locals := c.locals.map g.past }

def frame (g : Gap) : Frame → Frame
  | .arg thunk => .arg (g.past thunk)
  | .update thunk => .update (g.past thunk)
  | .force operation tag values pending backtrace =>
    .force operation tag values (pending.map g.past) backtrace

theorem past_of_lt (before : thunk < g.start) : g.past thunk = thunk :=
  if_pos before

theorem past_of_le (behind : g.start ≤ thunk) : g.past thunk = thunk + g.width :=
  if_neg (Nat.not_lt.2 behind)

theorem past_inj {first second : Nat} (same : g.past first = g.past second) : first = second := by
  unfold past at same
  split at same <;> split at same <;> omega

/-- No thunk of the other heap is in the gap. -/
theorem past_outside (g : Gap) (thunk : Nat) : g.past thunk < g.start ∨ g.start + g.width ≤ g.past thunk := by
  unfold past
  split <;> omega

/-- The second heap is the first one with a gap, which has the given thunks. -/
structure Opens (g : Gap) (kept : Nat → Closure) (h h' : Heap) : Prop where
  old : g.start ≤ h.size
  size : h'.size = h.size + g.width
  moved : ∀ thunk, h'.closureAt (g.past thunk) = g.closure (h.closureAt thunk)
  inside : ∀ thunk, g.start ≤ thunk → thunk < g.start + g.width → h'.closureAt thunk = kept thunk

/-- A new thunk comes behind the gap. -/
theorem Opens.new (opens : g.Opens kept h h') : g.past h.size = h'.size := by
  rw [past_of_le opens.old, opens.size]

theorem Opens.push (opens : g.Opens kept h h') (c : Closure) : g.Opens kept (h.push c) (h'.push (g.closure c)) := by
  have new := opens.new
  obtain ⟨old, size, moved, inside⟩ := opens
  refine ⟨?_, ?_, fun thunk => ?_, fun thunk behind before => ?_⟩
  · rw [Array.size_push]
    omega
  · rw [Array.size_push, Array.size_push]
    omega
  · rw [Heap.closureAt_push, Heap.closureAt_push, moved, ← new]
    by_cases last : thunk = h.size
    · rw [if_pos last, if_pos (last ▸ rfl)]
    · rw [if_neg last, if_neg fun same => last (past_inj same)]
  · rw [Heap.closureAt_push_lt (by omega), inside thunk behind before]

theorem past_lt_iff (old : g.start ≤ h.size) (size : h'.size = h.size + g.width) :
    g.past thunk < h'.size ↔ thunk < h.size := by
  unfold past
  split <;> omega

theorem Opens.modify (opens : g.Opens kept h h') (changed : Nat) {f f' : Closure → Closure}
    (same : ∀ c, f' (g.closure c) = g.closure (f c)) :
    g.Opens kept (h.modify changed f) (h'.modify (g.past changed) f') := by
  obtain ⟨old, size, moved, inside⟩ := opens
  refine ⟨?_, ?_, fun thunk => ?_, fun thunk behind before => ?_⟩
  · rw [Array.size_modify]
    exact old
  · rw [Array.size_modify, Array.size_modify]
    exact size
  · have bound : g.past thunk < h'.size ↔ thunk < h.size := past_lt_iff old size
    rw [Heap.closureAt_modify, Heap.closureAt_modify, moved]
    by_cases here : changed = thunk ∧ thunk < h.size
    · rw [if_pos here, if_pos ⟨congrArg g.past here.1, bound.2 here.2⟩, same]
    · rw [if_neg here, if_neg fun both => here ⟨past_inj both.1, bound.1 both.2⟩]
  · have apart := g.past_outside changed
    rw [Heap.closureAt_modify, if_neg (by omega), inside thunk behind before]

/-- A thunk in the gap may change without the other heap. -/
theorem Opens.modify_inside (opens : g.Opens kept h h') {changed : Nat} (behind : g.start ≤ changed)
    (before : changed < g.start + g.width) (f : Closure → Closure) :
    g.Opens (Function.update kept changed (f (kept changed))) h (h'.modify changed f) := by
  obtain ⟨old, size, moved, inside⟩ := opens
  refine ⟨old, ?_, fun thunk => ?_, fun thunk behind' before' => ?_⟩
  · rw [Array.size_modify]
    exact size
  · have apart := g.past_outside thunk
    rw [Heap.closureAt_modify, if_neg (by omega), moved]
  · rw [Heap.closureAt_modify, inside thunk behind' before']
    by_cases same : changed = thunk
    · subst same
      rw [if_pos ⟨rfl, by omega⟩, Function.update_self]
    · rw [if_neg fun both => same both.1, Function.update_of_ne (Ne.symm same)]

theorem closure_of_lt {c : Closure} (known : ∀ thunk ∈ c.locals, thunk < g.start) : g.closure c = c := by
  have same : c.locals.map g.past = c.locals.map id :=
    List.map_congr_left fun thunk inside => past_of_lt (known thunk inside)
  rw [closure, same, List.map_id]

/-- Two new thunks are a gap for everything that has been on the heap before. -/
theorem opens_push (closures : ∀ thunk, ∀ kept ∈ (h.closureAt thunk).locals, kept < h.size) (first second : Closure) :
    (Gap.mk h.size 2).Opens (fun thunk => if thunk = h.size then first else second) h ((h.push first).push second) := by
  refine ⟨Nat.le_refl _, ?_, fun thunk => ?_, fun thunk behind before => ?_⟩
  · rw [Array.size_push, Array.size_push]
    rfl
  · rw [closure_of_lt (closures thunk)]
    by_cases old : thunk < h.size
    · rw [past, if_pos old, Heap.closureAt_push_lt (by rw [Array.size_push]; omega), Heap.closureAt_push_lt old]
    · rw [past, if_neg old, Heap.closureAt_of_size_le (by simp only [Array.size_push]; omega),
        Heap.closureAt_of_size_le (by omega)]
  · dsimp only at behind before
    rw [Heap.closureAt_push, Heap.closureAt_push, Array.size_push]
    by_cases last : thunk = h.size
    · rw [if_neg (by omega), if_pos last, if_pos last]
    · rw [if_pos (by omega), if_neg last]

end Gap

theorem Term.Settles.code {t : Term} (value : t.Settles) : t.code.Settles := by
  cases t with
  | int | lam => trivial
  | _ => exact absurd value id

namespace Spine

variable {s : Spine} {arguments : List Nat} {rest : List Frame} {frame : Frame}

/-- What stands beneath the arguments that a spine starts with. -/
theorem top?_drop_of_waits (waits : Config.Waits s.frames arguments rest) :
    (s.drop arguments.length).top? = rest.head? := by
  rw [Config.Waits] at waits
  simp [drop, top?, waits]

theorem pop_frames_of_cons (frames : s.frames = frame :: rest) : s.pop.frames = rest := by
  have top : s.top? = some frame := by rw [top?, frames, List.head?_cons]
  have split := frames_of_top? top
  rw [frames, List.cons.injEq] at split
  exact split.2.symm

theorem available_of_waits (waits : Config.Waits s.frames arguments (frame :: rest)) (stops : frame.isArg = false) :
    s.available = arguments.length := by
  rw [available, waits, List.takeWhile_append_of_pos]
  · simp [stops]
  · simp [Frame.isArg]

end Spine

namespace Machine

open Config

/-- The second machine has what the first one has, but for the thunks in a gap of its heap. -/
structure Hosts (g : Gap) (kept : Nat → Closure) (m m' : Machine) : Prop where
  globals : m'.globals = m.globals
  never : m.interrupt = .never ∧ m'.interrupt = .never
  aborting : m'.aborting = m.aborting
  streams : m'.streams = m.streams
  constants : m'.constants = m.constants.map (Option.map g.past)
  heap : g.Opens kept m.heap m'.heap

/-- The second machine works on what the first one works on, and some frames wait beneath those of the first one. -/
structure Embeds (g : Gap) (kept : Nat → Closure) (below : List Frame) (m m' : Machine) : Prop
    extends Hosts g kept m m' where
  frames : m'.spine.frames = m.spine.frames.map g.frame ++ below
  term : m'.term = m.term
  locals : m'.locals = m.locals.map g.past
  backtrace : m'.backtrace = m.backtrace

/-- As long as the first step goes on so does the second one, to a machine that the first one is embedded in. -/
def KeepsUp (g : Gap) (kept : Nat → Closure) (below : List Frame) (result result' : StepResult) : Prop :=
  ∀ n, result = .running n → ∃ n', result' = .running n' ∧ Embeds g kept below n n'

variable {g : Gap} {kept : Nat → Closure} {below : List Frame} {m m' : Machine}

theorem KeepsUp.running {n n' : Machine} (embeds : Embeds g kept below n n') :
    KeepsUp g kept below (.running n) (.running n') := by
  rintro _ ⟨⟩
  exact ⟨n', rfl, embeds⟩

theorem KeepsUp.finished {value : Value} {n : Machine} {result' : StepResult} :
    KeepsUp g kept below (.finished value n) result' := by
  simp [KeepsUp]

theorem KeepsUp.faulted {fault : Fault} {n : Machine} {result' : StepResult} :
    KeepsUp g kept below (.faulted fault n) result' := by
  simp [KeepsUp]

/-- An operation that is given a function stops. -/
theorem KeepsUp.function {operation : Builtin} {tag : Tag} {values : List Int} {pending : List Nat}
    {backtrace : Backtrace} {result' : StepResult} (function : ∀ value, m.term ≠ .int value)
    (top : m.spine.top? = some (.force operation tag values pending backtrace)) :
    KeepsUp g kept below m.settle result' := by
  rw [Machine.settle, top]
  cases operation with
  | abort => exact .faulted
  | _ =>
    dsimp only
    split
    · next value focus => exact absurd focus (function value)
    · exact .faulted

/-- A thunk waits beneath the arguments of an operation. -/
theorem partialApplication_of_waits {operation : Builtin} {tag : Tag} {arguments : List Nat} {thunk : Nat}
    {rest : List Frame} (waits : Waits m.spine.frames arguments (.update thunk :: rest)) :
    m.partialApplication operation tag arguments.length =
      .running (updateThunk { m with
        spine := (m.spine.popArguments arguments.length).2.pop
        term := .applyAll (.builtin operation tag) (heldArguments arguments.length)
        locals := arguments.reverse } thunk) := by
  obtain ⟨-, same, lower⟩ := Spine.popArguments_of_waits waits
  have top : (m.spine.popArguments arguments.length).2.top? = some (.update thunk) := by
    rw [Spine.top?, lower, List.head?_cons]
  unfold Machine.partialApplication
  rw [Spine.top?_drop_of_waits waits]
  dsimp only [List.head?_cons]
  rw [top, same]

theorem reduce_of_global {index : Nat} {tag : Tag} {definition : Global} (focus : m.term = .global index tag)
    (found : m.globals[index]? = some definition) :
    m.reduce =
      if definition.term.isValue then
        .running { m with backtrace := m.backtrace.push tag, term := definition.term, locals := [] }
      else
        (constant { m with backtrace := m.backtrace.push tag } index definition.term).2.enter
          (constant { m with backtrace := m.backtrace.push tag } index definition.term).1 := by
  unfold Machine.reduce
  rw [focus]
  dsimp only
  rw [found]

theorem reduce_of_builtin {operation : Builtin} {tag : Tag} (focus : m.term = .builtin operation tag) :
    m.reduce =
      if m.spine.available < operation.arity then m.partialApplication operation tag m.spine.available
      else call { m with spine := (m.spine.popArguments operation.arity).2 } operation tag
        (m.spine.popArguments operation.arity).1 := by
  unfold Machine.reduce
  rw [focus]

/-- A run that ends with a value leaves the machine as it is. -/
theorem finished_eq {value : Value} {last : Machine} (never : m.interrupt = .never)
    (ends : m.step = .finished value last) : last = m.tick := by
  rw [step_of_never never] at ends
  have obeys := m.tick.reduce_obeys
  rw [ends] at obeys
  obtain ⟨settles, bare, -⟩ := obeys.1
  have frames : m.tick.state.frames = [] := List.map_eq_nil_iff.2 bare
  rw [State.reduce_of_end frames settles.code] at ends
  cases ends
  rfl

namespace Embeds

theorem tick_left (embeds : Embeds g kept below m m') : Embeds g kept below m.tick m' := by
  obtain ⟨stats, traced, ticked⟩ := m.tick_eq
  rw [ticked]
  exact { embeds with }

theorem tick_right (embeds : Embeds g kept below m m') : Embeds g kept below m m'.tick := by
  obtain ⟨stats, traced, ticked⟩ := m'.tick_eq
  rw [ticked]
  exact { embeds with }

theorem tick (embeds : Embeds g kept below m m') : Embeds g kept below m.tick m'.tick :=
  embeds.tick_left.tick_right

theorem push_frames (embeds : Embeds g kept below m m') (frame : Frame) :
    (m'.spine.push (g.frame frame)).frames = (m.spine.push frame).frames.map g.frame ++ below := by
  rw [Spine.push_frames, Spine.push_frames, embeds.frames, List.map_cons, List.cons_append]

theorem enter (embeds : Embeds g kept below m m') (thunk : Nat) :
    KeepsUp g kept below (m.enter thunk) (m'.enter (g.past thunk)) := by
  have moved := embeds.heap.moved thunk
  simp only [Heap.closureAt] at moved
  unfold Machine.enter
  dsimp only
  rw [moved]
  cases state : (m.heap.getD thunk default).state with
  | running => exact .faulted
  | done =>
    dsimp only [Gap.closure]
    rw [state]
    exact .running { embeds with term := rfl, locals := rfl, backtrace := rfl }
  | pending =>
    dsimp only [Gap.closure]
    rw [state]
    have heap : g.Opens kept (m.heap.modify thunk fun c => { c with state := .running })
        (m'.heap.modify (g.past thunk) fun c => { c with state := .running }) :=
      embeds.heap.modify thunk fun _ => rfl
    exact .running { embeds with
      term := rfl, locals := rfl, backtrace := rfl, frames := embeds.push_frames (.update thunk), heap := heap }

/-- An argument is made. -/
theorem apply (embeds : Embeds g kept below m m') (left right : Term) :
    KeepsUp g kept below
      (match m.delay right with
        | (.ok thunk, m) => .running { m with spine := m.spine.push (.arg thunk), term := left }
        | (.error (fault, tag), m) => m.fail (.internal fault) (some tag))
      (match m'.delay right with
        | (.ok thunk, m) => .running { m with spine := m.spine.push (.arg thunk), term := left }
        | (.error (fault, tag), m) => m.fail (.internal fault) (some tag)) := by
  have suspended : ∀ locals locals' : Env, locals' = locals.map g.past →
      KeepsUp g kept below
        (.running { m.countThunk with
          heap := m.heap.push (Closure.of right locals m.backtrace)
          spine := m.spine.push (.arg m.heap.size), term := left })
        (.running { m'.countThunk with
          heap := m'.heap.push (Closure.of right locals' m'.backtrace)
          spine := m'.spine.push (.arg m'.heap.size), term := left }) := by
    rintro locals _ rfl
    rw [← embeds.heap.new, embeds.backtrace]
    exact .running { embeds with
      term := rfl, heap := embeds.heap.push (Closure.of right locals m.backtrace)
      frames := embeds.push_frames (.arg m.heap.size) }
  unfold delay
  cases right with
  | var depth tag =>
    dsimp only
    rw [embeds.locals, List.getElem?_map]
    cases m.locals[depth]? with
    | none => exact .faulted
    | some thunk => exact .running { embeds with term := rfl, frames := embeds.push_frames (.arg thunk) }
  | int | builtin | global => exact suspended [] [] rfl
  | lam | app => exact suspended m.locals m'.locals embeds.locals

theorem top (embeds : Embeds g kept below m m') {frame : Frame} (top : m.spine.top? = some frame) :
    m'.spine.top? = some (g.frame frame) ∧ m'.spine.pop.frames = m.spine.pop.frames.map g.frame ++ below := by
  have frames := embeds.frames
  rw [Spine.frames_of_top? top, List.map_cons, List.cons_append] at frames
  exact ⟨by rw [Spine.top?, frames, List.head?_cons], Spine.pop_frames_of_cons frames⟩

theorem constant (embeds : Embeds g kept below m m') (index : Nat) (t : Term) :
    (m'.constant index t).1 = g.past (m.constant index t).1 ∧
      Embeds g kept below (m.constant index t).2 (m'.constant index t).2 := by
  have fresh : Embeds g kept below
      { m.countThunk with
        heap := m.heap.push (Closure.of t [] m.backtrace), constants := m.constants.set! index (some m.heap.size) }
      { m'.countThunk with
        heap := m'.heap.push (Closure.of t [] m'.backtrace)
        constants := m'.constants.set! index (some m'.heap.size) } := by
    have constants : m'.constants.set! index (some m'.heap.size) =
        (m.constants.set! index (some m.heap.size)).map (Option.map g.past) := by
      rw [embeds.constants, ← embeds.heap.new, Array.set!_eq_setIfInBounds, Array.set!_eq_setIfInBounds,
        Array.map_setIfInBounds, Option.map_some]
    rw [embeds.backtrace]
    exact { embeds with constants := constants, heap := embeds.heap.push (Closure.of t [] m.backtrace) }
  have known : m'.constants[index]? = m.constants[index]?.map (Option.map g.past) := by
    rw [embeds.constants, Array.getElem?_map]
  unfold Machine.constant
  rw [known]
  cases m.constants[index]? with
  | none => exact ⟨embeds.heap.new.symm, fresh⟩
  | some entry =>
    cases entry with
    | none => exact ⟨embeds.heap.new.symm, fresh⟩
    | some thunk => exact ⟨rfl, embeds⟩

theorem unfold (embeds : Embeds g kept below m m') (value : Int) :
    Embeds g kept below (m.unfold value) (m'.unfold value) := by
  unfold Machine.unfold
  dsimp only [alloc]
  split
  · have heap := embeds.heap.push (Closure.of (.int (value - 1)) [] m.backtrace)
    rw [← embeds.heap.new, embeds.backtrace]
    exact { embeds with
      term := rfl, locals := rfl, backtrace := rfl, heap := heap, frames := embeds.push_frames (.arg m.heap.size) }
  · exact { embeds with term := rfl, locals := rfl }

theorem waits (embeds : Embeds g kept below m m') {arguments : List Nat} {rest : List Frame}
    (waits : Waits m.spine.frames arguments rest) :
    Waits m'.spine.frames (arguments.map g.past) (rest.map g.frame ++ below) := by
  rw [Waits, embeds.frames, show m.spine.frames = _ from waits, List.map_append, List.append_assoc, List.map_map,
    List.map_map]
  rfl

/-- Arguments are taken from both spines. -/
theorem popArguments (embeds : Embeds g kept below m m') {count : Nat} (enough : count ≤ m.spine.available) :
    count ≤ m'.spine.available ∧ (m'.spine.popArguments count).1 = (m.spine.popArguments count).1.map g.past ∧
      (m'.spine.popArguments count).2.frames = (m.spine.popArguments count).2.frames.map g.frame ++ below := by
  obtain ⟨length, split⟩ := m.spine.popArguments_spec count enough
  have waits := embeds.waits split
  have popped := Spine.popArguments_of_waits waits
  rw [List.length_map, length] at popped
  exact popped

theorem updateThunk (embeds : Embeds g kept below m m') (thunk : Nat) :
    Embeds g kept below (m.updateThunk thunk) (m'.updateThunk (g.past thunk)) := by
  have heap : g.Opens kept (m.heap.modify thunk (·.update m.term m.locals))
      (m'.heap.modify (g.past thunk) (·.update m'.term m'.locals)) := by
    refine embeds.heap.modify thunk fun c => ?_
    rw [embeds.term, embeds.locals]
    rfl
  exact { embeds with heap := heap }

/-- Operations on integers do not look at the heap. -/
theorem primitive (embeds : Embeds g kept below m m') (operation : Builtin) (values : List Int) :
    (m'.primitive operation values).1 = (m.primitive operation values).1 ∧
      Embeds g kept below (m.primitive operation values).2 (m'.primitive operation values).2 := by
  have onStreams : ∀ {α : Type} (work : Streams → α × Streams), (m'.onStreams work).1 = (m.onStreams work).1 ∧
      Embeds g kept below (m.onStreams work).2 (m'.onStreams work).2 := by
    intro α work
    unfold Machine.onStreams
    dsimp only
    rw [embeds.streams]
    exact ⟨rfl, { embeds with streams := rfl }⟩
  unfold Machine.primitive
  rw [embeds.aborting]
  split
  · next value =>
    split
    · obtain ⟨same, follows⟩ := onStreams (·.write (if m.aborting then .errors else .output) (UInt8.ofNat value.toNat))
      dsimp only
      rw [same]
      split <;> exact ⟨rfl, follows⟩
    · exact ⟨rfl, embeds⟩
  · next index =>
    obtain ⟨same, follows⟩ := onStreams (·.get index)
    dsimp only
    rw [same]
    split <;> exact ⟨rfl, follows⟩
  all_goals exact ⟨rfl, embeds⟩

/-- An operation has the values of all of its arguments. -/
theorem answer (embeds : Embeds g kept below m m') (operation : Builtin) (values : List Int) (tag : Tag) :
    KeepsUp g kept below
      (match m.primitive operation values with
        | (.ok term, m) => .running { m with term, locals := [] }
        | (.error cause, m) => m.fail cause (some tag))
      (match m'.primitive operation values with
        | (.ok term, m) => .running { m with term, locals := [] }
        | (.error cause, m) => m.fail cause (some tag)) := by
  obtain ⟨same, follows⟩ := embeds.primitive operation values
  generalize m.primitive operation values = answer at same follows ⊢
  generalize m'.primitive operation values = answer' at same follows ⊢
  obtain ⟨result, n⟩ := answer
  obtain ⟨result', n'⟩ := answer'
  cases show result' = result from same
  cases result with
  | ok t => exact .running { follows with term := rfl, locals := rfl }
  | error cause => exact .faulted

theorem settle (embeds : Embeds g kept below m m') : KeepsUp g kept below m.settle m'.settle := by
  cases top : m.spine.top? with
  | none =>
    rw [Machine.settle, top]
    exact .finished
  | some frame =>
    obtain ⟨top', frames⟩ := embeds.top top
    have popped : Embeds g kept below { m with spine := m.spine.pop } { m' with spine := m'.spine.pop } :=
      { embeds with frames }
    cases frame with
    | arg thunk =>
      rw [Machine.settle, top]
      exact .faulted
    | update thunk =>
      rw [Machine.settle, top, Machine.settle, top']
      exact .running (popped.updateThunk thunk)
    | force operation tag values pending backtrace =>
      by_cases aborts : operation = .abort
      · subst aborts
        rw [Machine.settle, top]
        exact .faulted
      · cases focus : m.term with
        | int value =>
          have focus' : m'.term = .int value := embeds.term.trans focus
          cases pending with
          | nil =>
            have ready : Embeds g kept below { m with spine := m.spine.pop, backtrace }
                { m' with spine := m'.spine.pop, backtrace } := { popped with backtrace := rfl }
            rw [settle_of_last focus aborts top, settle_of_last focus' aborts top']
            exact ready.answer operation (values ++ [value]) tag
          | cons next pending =>
            have collected : Embeds g kept below
                { m with spine := m.spine.pop.push (.force operation tag (values ++ [value]) pending backtrace) }
                { m' with
                  spine := m'.spine.pop.push (g.frame (.force operation tag (values ++ [value]) pending backtrace)) } :=
              { popped with frames := popped.push_frames (.force operation tag (values ++ [value]) pending backtrace) }
            rw [settle_of_next focus aborts top, settle_of_next focus' aborts top']
            exact collected.enter next
        | _ => exact .function (by simp [focus]) top

/-- An operation that is short of arguments becomes the value of a thunk. -/
theorem hold (embeds : Embeds g kept below m m') {operation : Builtin} {tag : Tag}
    (focus : m.term = .builtin operation tag) (short : m.spine.available < operation.arity) :
    KeepsUp g kept below m.reduce m'.reduce := by
  obtain ⟨arguments, rest, waits, count, -⟩ := m.spine.available_split
  have beneath := Spine.top?_drop_of_waits waits
  rw [reduce_of_builtin focus, if_pos short, ← count]
  match rest with
  | [] | .arg _ :: _ | .force .. :: _ =>
    unfold Machine.partialApplication
    rw [beneath]
    exact .faulted
  | .update thunk :: rest =>
    have waits' := embeds.waits waits
    rw [List.map_cons, List.cons_append] at waits'
    have available' := Spine.available_of_waits waits' rfl
    have lower := (Spine.popArguments_of_waits waits).2.2
    have lower' := (Spine.popArguments_of_waits waits').2.2
    rw [reduce_of_builtin (embeds.term.trans focus), available', partialApplication_of_waits waits,
      partialApplication_of_waits waits']
    rw [List.length_map] at lower' ⊢
    rw [if_pos (by omega)]
    have held : Embeds g kept below
        { m with
          spine := (m.spine.popArguments arguments.length).2.pop
          term := .applyAll (.builtin operation tag) (heldArguments arguments.length)
          locals := arguments.reverse }
        { m' with
          spine := (m'.spine.popArguments arguments.length).2.pop
          term := .applyAll (.builtin operation tag) (heldArguments arguments.length)
          locals := (arguments.map g.past).reverse } := by
      refine { embeds with term := rfl, locals := List.map_reverse.symm, frames := ?_ }
      dsimp only
      rw [Spine.pop_frames_of_cons lower, Spine.pop_frames_of_cons lower']
    exact .running (held.updateThunk thunk)

theorem call (embeds : Embeds g kept below m m') (operation : Builtin) (tag : Tag) (arguments : List Nat) :
    KeepsUp g kept below (m.call operation tag arguments) (m'.call operation tag (arguments.map g.past)) := by
  cases arguments with
  | nil =>
    unfold Machine.call
    exact .faulted
  | cons first pending =>
    unfold Machine.call
    by_cases aborts : operation = .abort
    · rw [if_pos aborts, if_pos aborts]
      dsimp only [onStreams]
      rw [embeds.streams]
      have called : Embeds g kept below
          { m with
            streams := (m.streams.flush .output).2, aborting := true
            spine := m.spine.push (.force operation tag [] pending m.backtrace) }
          { m' with
            streams := (m.streams.flush .output).2, aborting := true
            spine := m'.spine.push (.force operation tag [] (pending.map g.past) m'.backtrace) } := by
        refine { embeds with streams := rfl, aborting := rfl, frames := ?_ }
        rw [embeds.backtrace]
        exact embeds.push_frames (.force operation tag [] pending m.backtrace)
      exact called.enter first
    · rw [if_neg aborts, if_neg aborts]
      have called : Embeds g kept below
          { m with spine := m.spine.push (.force operation tag [] pending m.backtrace) }
          { m' with spine := m'.spine.push (.force operation tag [] (pending.map g.past) m'.backtrace) } := by
        refine { embeds with frames := ?_ }
        rw [embeds.backtrace]
        exact embeds.push_frames (.force operation tag [] pending m.backtrace)
      exact called.enter first

theorem reduce_global (embeds : Embeds g kept below m m') {index : Nat} {tag : Tag}
    (focus : m.term = .global index tag) : KeepsUp g kept below m.reduce m'.reduce := by
  have named : Embeds g kept below { m with backtrace := m.backtrace.push tag }
      { m' with backtrace := m'.backtrace.push tag } := { embeds with backtrace := by rw [embeds.backtrace] }
  have focus' : m'.term = .global index tag := embeds.term.trans focus
  have globals := embeds.globals
  cases found : m.globals[index]? with
  | none =>
    unfold Machine.reduce
    rw [focus]
    dsimp only
    rw [found]
    exact .faulted
  | some definition =>
    have found' : m'.globals[index]? = some definition := by rw [embeds.globals, found]
    rw [reduce_of_global focus found, reduce_of_global focus' found']
    split
    · exact .running { named with term := rfl, locals := rfl }
    · obtain ⟨same, follows⟩ := named.constant index definition.term
      rw [same]
      exact follows.enter _

theorem reduce_builtin (embeds : Embeds g kept below m m') {operation : Builtin} {tag : Tag}
    (focus : m.term = .builtin operation tag) : KeepsUp g kept below m.reduce m'.reduce := by
  by_cases short : m.spine.available < operation.arity
  · exact embeds.hold focus short
  · have enough : operation.arity ≤ m.spine.available := by omega
    obtain ⟨enough', same, frames⟩ := embeds.popArguments enough
    rw [reduce_of_builtin focus, reduce_of_builtin (embeds.term.trans focus), if_neg short, if_neg (by omega), same]
    have called : Embeds g kept below { m with spine := (m.spine.popArguments operation.arity).2 }
        { m' with spine := (m'.spine.popArguments operation.arity).2 } := { embeds with frames }
    exact called.call operation tag _

/-- One step of the first machine is one of the second. -/
theorem reduce (embeds : Embeds g kept below m m') : KeepsUp g kept below m.reduce m'.reduce := by
  cases focus : m.term with
  | global index tag => exact embeds.reduce_global focus
  | builtin operation tag => exact embeds.reduce_builtin focus
  | app left right =>
    unfold Machine.reduce
    rw [embeds.term, focus]
    exact embeds.apply left right
  | lam tag body =>
    unfold Machine.reduce
    rw [embeds.term, focus]
    dsimp only
    cases top : m.spine.top? with
    | none =>
      rw [Machine.settle, top]
      exact .finished
    | some frame =>
      obtain ⟨top', frames⟩ := embeds.top top
      rw [top']
      cases frame with
      | arg thunk => exact .running { embeds with term := rfl, locals := by rw [embeds.locals]; rfl, frames }
      | _ => exact embeds.settle
  | var depth tag =>
    unfold Machine.reduce
    rw [embeds.term, focus]
    dsimp only
    rw [embeds.locals, List.getElem?_map]
    cases m.locals[depth]? with
    | none => exact .faulted
    | some thunk => exact embeds.enter thunk
  | int value =>
    unfold Machine.reduce
    rw [embeds.term, focus]
    dsimp only
    cases top : m.spine.top? with
    | none =>
      rw [Machine.settle, top]
      exact .finished
    | some frame =>
      rw [(embeds.top top).1]
      cases frame with
      | arg thunk => exact .running (embeds.unfold value)
      | _ => exact embeds.settle

theorem step (embeds : Embeds g kept below m m') : KeepsUp g kept below m.step m'.step := by
  rw [step_of_never embeds.never.1, step_of_never embeds.never.2]
  exact embeds.tick.reduce

/-- Where the run of the first machine ends with a value, the second machine has the same value, which is given to
what waits beneath. -/
theorem steps (embeds : Embeds g kept below m m') {fuel : Nat} {value : Value} {last : Machine}
    (ends : Machine.steps fuel m = (.value value, last)) :
    ∃ last', m'.Reaches last' ∧ Embeds g kept below last last' ∧ last.config.Halts value := by
  induction fuel generalizing m m' with
  | zero => cases ends
  | succ fuel ih =>
    rw [Machine.steps] at ends
    have obeys := m.step_obeys
    cases result : m.step with
    | running next =>
      obtain ⟨next', result', embeds'⟩ := embeds.step next result
      rw [result] at ends
      obtain ⟨last', reaches, final⟩ := ih embeds' ends
      exact ⟨last', reaches.head result', final⟩
    | faulted fault next =>
      rw [result] at ends
      cases ends
    | finished v after =>
      rw [result] at ends obeys
      cases ends
      obtain rfl := finished_eq embeds.never.1 result
      exact ⟨m', .refl m', embeds.tick_left, obeys.2 ▸ obeys.1⟩

end Embeds

end Machine

end MixfixLambda
