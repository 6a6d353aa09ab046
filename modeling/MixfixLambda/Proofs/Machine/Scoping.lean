import MixfixLambda.Proofs.Bind.Module
import MixfixLambda.Proofs.Bind.Prelude
import MixfixLambda.Proofs.Machine.Inherited

/-!
# Bound programs and internal faults

The focus and every closure are scoped under their own thunks, and references are to globals of the table.
Every step keeps that, one that fails included, so that no run of a bound program finds the machine in a
state that it has no rule for.
-/
namespace MixfixLambda

namespace Machine

variable {depth limit : Nat}

theorem Made.scoped {t : Term} (made : Made t) : t.Scoped depth limit := by
  cases made with
  | int value => trivial
  | boolean value => cases value <;> simp [Builtin.boolean, Term.lams_scoped, Builtin.v]
  | identity => simp [Machine.identity, Builtin.v]
  | zero => simp [Machine.zero, Term.lams_scoped, Builtin.v]
  | succ => simp [Machine.succ, Term.lams_scoped, Term.applyAll_scoped, Builtin.v]

theorem heldArguments_scoped (count : Nat) : ∀ t ∈ heldArguments count, t.Scoped count limit := by
  intro t member
  obtain ⟨i, inside, rfl⟩ := List.mem_map.mp member
  have below := List.mem_range.mp inside
  rw [Builtin.v, Term.var_scoped]
  omega

theorem held_scoped (operation : Builtin) (tag : Tag) (count : Nat) :
    (Term.applyAll (.builtin operation tag) (heldArguments count)).Scoped count limit := by
  rw [Term.applyAll_scoped]
  exact ⟨trivial, heldArguments_scoped count⟩

end Machine

/-- In a stratified table every term is closed. -/
theorem Stratified.closed {globals : Array Global} (stratified : Stratified globals) {index : Nat}
    {definition : Global} (found : globals[index]? = some definition) :
    definition.term.Scoped 0 globals.size := by
  have inside : index < globals.size := (Array.getElem?_eq_some_iff.mp found).1
  exact (stratified index definition found).mono (Nat.le_refl _) (Nat.le_of_lt inside)

/-- Being scoped is passed on to every term of a run over a stratified table. -/
theorem Stratified.inherits {globals : Array Global} (stratified : Stratified globals) :
    Inherits globals fun depth t => t.Scoped depth globals.size where
  left inside := inside.1
  right inside := inside.2
  body inside := inside
  global _ found := stratified.closed found
  captured {locals t} inside complex := by
    cases t with
    | var => exact absurd trivial complex
    | int | builtin => trivial
    | global | lam | app => exact inside
  made made := made.scoped
  held count _ := Machine.held_scoped _ _ count

namespace Config

/-- Every term that the machine holds is scoped under the thunks that are kept with it, and every
operation on the spine lacks the values that it should. -/
structure Scoped (c : Config) : Prop where
  globals : Stratified c.globals
  holds : c.Holds fun depth t => t.Scoped depth c.globals.size
  collects : c.Collects

namespace Scoped

variable {c c' : Config}

theorem focus (closed : c.Scoped) : c.term.Scoped c.locals.length c.globals.size :=
  closed.holds.focus

theorem move (closed : c.Scoped) (move : c.Moves c') : c'.Scoped := by
  have holds := closed.holds.move closed.globals.inherits move
  refine ⟨?_, ?_, closed.collects.move move⟩
  · rw [move.globals]
    exact closed.globals
  · rw [move.globals]
    exact holds

theorem fail (closed : c.Scoped) {cause : FaultCause} (failure : c.Fails cause c') : c'.Scoped := by
  have holds := closed.holds.fail closed.globals.inherits failure
  refine ⟨?_, ?_, closed.collects.fail failure⟩
  · rw [failure.globals]
    exact closed.globals
  · rw [failure.globals]
    exact holds

/-- A step finds a rule for what the machine holds. -/
theorem fail_ne_internal (closed : c.Scoped) {cause : FaultCause} (failure : c.Fails cause c')
    (internal : InternalFault) : cause ≠ .internal internal := by
  rintro rfl
  have focused := closed.focus
  cases failure with
  | @unbound depth tag focus missing =>
    have beyond : c.locals.length ≤ depth := List.getElem?_eq_none_iff.mp missing
    rcases focus with focus | ⟨left, focus⟩
    · rw [focus, Term.var_scoped] at focused
      omega
    · rw [focus, Term.app_scoped, Term.var_scoped] at focused
      omega
  | @unknown index tag focus missing =>
    have beyond : c.globals.size ≤ index := Array.getElem?_eq_none_iff.mp missing
    rw [focus, Term.global_scoped] at focused
    omega
  | compute focus top both two answer =>
    rcases Builtin.binary_error two answer with impossible | impossible | impossible <;> cases impossible
  | talk focus top talks refused =>
    rcases refused with impossible | ⟨error, impossible⟩ <;> cases impossible
  | wrongCount focus top wrong =>
    have collects := (closed.collects.top top).1
    simp only [Frame.Collects, List.length_nil] at collects
    omega

/-- Between two runs the thunks and the constants are kept. -/
theorem reset (closed : c.Scoped) (streams : Streams) {entry : Term}
    (inside : entry.Scoped 0 c.globals.size) :
    ({ c with streams, frames := [], term := entry, locals := [] } : Config).Scoped :=
  ⟨closed.globals, ⟨inside, closed.holds.closures, nofun⟩, nofun⟩

end Scoped

end Config

namespace Machine

/-- What a machine holds while it runs is complete: variables have thunks, references have definitions,
operations wait for exactly the values they lack, and a step finds a rule. -/
structure Complete (m : Machine) : Prop where
  locals : ∀ depth tag, (m.term = .var depth tag ∨ ∃ left, m.term = .app left (.var depth tag)) →
    ∃ thunk, m.locals[depth]? = some thunk ∧ thunk < m.heap.size
  globals : ∀ index tag, m.term = .global index tag → ∃ definition, m.globals[index]? = some definition
  collects : ∀ frame ∈ m.spine.frames, frame.Collects
  ruled : ∀ fault after internal, m.step = .faulted fault after → fault.cause ≠ .internal internal

theorem complete_of_scoped {m : Machine} (addressed : m.config.Addressed) (closed : m.config.Scoped) :
    m.Complete := by
  have focused := closed.focus
  refine ⟨?_, ?_, closed.collects, ?_⟩
  · intro depth tag focus
    have inside : depth < m.locals.length := by
      rcases focus with focus | ⟨left, focus⟩
      · rw [show m.config.term = _ from focus] at focused
        exact focused
      · rw [show m.config.term = _ from focus] at focused
        exact focused.2
    exact ⟨m.locals[depth], List.getElem?_eq_getElem inside, addressed.locals _ (List.getElem_mem inside)⟩
  · intro index tag focus
    rw [show m.config.term = _ from focus] at focused
    exact ⟨m.globals[index], Array.getElem?_eq_getElem focused⟩
  · intro fault after internal step
    have obeys := m.step_obeys
    rw [step] at obeys
    exact closed.fail_ne_internal obeys internal

/-- A run of the entry may start: whatever earlier runs have left behind is addressed and scoped. -/
def Ready (entry : Term) (m : Machine) : Prop :=
  (m.load entry).config.Addressed ∧ (m.load entry).config.Scoped

variable {entry : Term} {m : Machine}

theorem Ready.steps (ready : m.Ready entry) (fuel : Nat) :
    let last := (Machine.steps fuel (m.load entry)).2
    last.config.Addressed ∧ last.config.Scoped ∧ last.config.globals = m.globals := by
  refine steps_keep (P := fun c => c.Addressed ∧ c.Scoped ∧ c.globals = m.globals) ?_ ?_ fuel _
    ⟨ready.1, ready.2, rfl⟩
  · rintro c c' ⟨addressed, closed, same⟩ move
    exact ⟨addressed.move move, closed.move move, move.globals.trans same⟩
  · rintro c cause c' ⟨addressed, closed, same⟩ failure
    exact ⟨addressed.fail failure, closed.fail failure, failure.globals.trans same⟩

/-- What the next run finds. -/
theorem conclude_load_config (result : RunResult) (m : Machine) (entry : Term) :
    ((conclude result m).2.load entry).config = { m.config with
      streams := (flushAll m.streams).2, frames := [], term := entry, locals := [] } := by
  unfold conclude
  dsimp only
  split <;> rfl

theorem Ready.run (ready : m.Ready entry) (fuel : Nat) : (m.run fuel entry).2.Ready entry := by
  obtain ⟨addressed, closed, same⟩ := ready.steps fuel
  have inside : entry.Scoped 0 m.globals.size := ready.2.focus
  rw [← same] at inside
  unfold Ready
  rw [Machine.run, conclude_load_config]
  exact ⟨addressed.reset _ _, closed.reset _ inside⟩

theorem Ready.runs (ready : m.Ready entry) (fuels : List Nat) :
    (fuels.foldl (fun m fuel => (m.run fuel entry).2) m).Ready entry := by
  induction fuels generalizing m with
  | nil => exact ready
  | cons fuel fuels ih => exact ih (ready.run fuel)

/-- A fault that a run reports is that of a step, or of a stream that is flushed at the end. -/
theorem conclude_fault {result : RunResult} {fault : Fault}
    (faulted : (conclude result m).1 = .fault fault) :
    result = .fault fault ∨ ∃ error, fault.cause = .stream error := by
  unfold conclude at faulted
  dsimp only at faulted
  split at faulted
  · exact .inr ⟨_, by rw [← RunResult.fault.inj faulted]⟩
  · exact .inl faulted

theorem Ready.run_ne_internal (ready : m.Ready entry) {fuel : Nat} {fault : Fault}
    (faulted : (m.run fuel entry).1 = .fault fault) (internal : InternalFault) :
    fault.cause ≠ .internal internal := by
  have ends := steps_ends (P := Config.Scoped) (fun _ _ closed move => closed.move move) fuel
    (m.load entry) ready.2
  rcases conclude_fault faulted with result | ⟨error, cause⟩
  · rw [result] at ends
    obtain ⟨c, closed, failure⟩ := ends
    exact closed.fail_ne_internal failure internal
  · rw [cause]
    nofun

theorem start_ready {globals : Array Global} (stratified : Stratified globals)
    (closed : entry.Scoped 0 globals.size) (streams : Streams) (interrupt : Interrupt)
    (options : Options) : (start globals streams interrupt options).Ready entry := by
  refine ⟨.start .., stratified, ⟨closed, ?_, nofun⟩, nofun⟩
  intro thunk
  rw [start_closureAt]
  exact Term.int_scoped _

/-- However often the entry of a bound module is run on one machine, with whatever options and streams, no
run meets an internal fault, and the machine is complete at every step. -/
theorem run_never_internal {text : String} {program : Module}
    (bound : (bindModule text).result = .ok program) (streams : Streams) (interrupt : Interrupt)
    (options : Options) (fuels : List Nat) (fuel : Nat) :
    let entry := program.entry.term
    let first := start program.globals streams interrupt options
    let machine := fuels.foldl (fun m fuel => (m.run fuel entry).2) first
    (∀ fault internal, (machine.run fuel entry).1 = .fault fault → fault.cause ≠ .internal internal) ∧
      (steps fuel (machine.load entry)).2.Complete := by
  intro entry first machine
  have wellScoped := bindModule_wellScoped bound
  have ready : machine.Ready entry :=
    (start_ready wellScoped.globals wellScoped.entry streams interrupt options).runs fuels
  refine ⟨fun fault internal faulted => ready.run_ne_internal faulted internal, ?_⟩
  obtain ⟨addressed, closed, -⟩ := ready.steps fuel
  exact complete_of_scoped addressed closed

theorem run_never_internal_square : ∃ program, (bindModule squareSource).result = .ok program ∧
    let first := start program.globals (.ofReader []) .never ⟨0, false, false⟩
    let second := (first.run 40 program.entry.term).2
    ∀ fault internal, (second.run 40 program.entry.term).1 = .fault fault →
      fault.cause ≠ .internal internal := by
  obtain ⟨program, bound, -⟩ := bindModule_square
  exact ⟨program, bound, (run_never_internal bound (.ofReader []) .never ⟨0, false, false⟩ [40] 40).1⟩

end Machine

end MixfixLambda
