import MixfixLambda.Proofs.Machine.Graph
import MixfixLambda.Proofs.Machine.Sharing

/-!
# Acyclic thunks

No thunk of a bound program leads back to itself. An update makes an older thunk refer to newer ones, so
that no order of creation shows this; what does is that nothing the machine works with leads to a thunk
that waits for its value: neither the focus nor a frame above the one that replaces it.
-/
namespace MixfixLambda

open Relation

namespace Config

/-- The thunk that the frame replaces, if it replaces one, cannot be reached from the node. -/
def Avoids (c : Config) (node : Node) (frame : Frame) : Prop :=
  ∀ address, frame = .update address → ¬ c.Reaches node (.thunk address)

/-- The graph of thunks and globals has no cycle, and no thunk that waits for its value can be reached
from the focus or from a frame above the one that replaces it. -/
structure Acyclic (c : Config) : Prop where
  loopless : ∀ node, ¬ TransGen c.Edge node node
  focus : ∀ node, c.term.Roots c.locals node → ∀ frame ∈ c.frames, c.Avoids node frame
  above : c.frames.Pairwise fun upper lower => ∀ address ∈ upper.thunks, c.Avoids (.thunk address) lower

section Avoids

variable {c c' : Config} {node other : Node} {frame : Frame}

theorem Avoids.edge (avoids : c.Avoids node frame) (edge : c.Edge node other) : c.Avoids other frame :=
  fun address update path => avoids address update (.head edge path)

theorem Avoids.rewire {changed : Node} {targets : Node → Prop} (avoids : c.Avoids node frame)
    (rewires : c.Rewires c' changed targets) (apart : ∀ target, targets target → c.Avoids target frame) :
    c'.Avoids node frame := by
  intro address update path
  rcases rewires.reaches path with old | ⟨-, target, known, path⟩
  · exact avoids address update old
  · exact apart target known address update path

end Avoids

namespace Acyclic

variable {c c' middle after : Config} {thunk : Nat}

/-- The references of one node change, and the new ones lead neither back to it nor to a thunk that waits
for its value. -/
theorem rewire (acyclic : c.Acyclic) {changed : Node} {targets : Node → Prop}
    (rewires : c.Rewires c' changed targets)
    (away : ∀ target, targets target → ¬ c.Reaches target changed)
    (apart : ∀ target, targets target → ∀ frame ∈ c.frames, c.Avoids target frame)
    (term : c'.term = c.term) (locals : c'.locals = c.locals) (frames : c'.frames = c.frames) :
    c'.Acyclic := by
  refine ⟨rewires.loopless acyclic.loopless away, ?_, ?_⟩
  · rw [term, locals, frames]
    intro node root frame member
    exact (acyclic.focus node root frame member).rewire rewires
      fun target known => apart target known frame member
  · rw [frames]
    refine acyclic.above.imp_of_mem ?_
    intro upper lower _ member avoids address held
    exact (avoids address held).rewire rewires fun target known => apart target known lower member

/-- The focus and the frames change, and the graph stays. -/
theorem refocus (acyclic : c.Acyclic) (edge : c'.Edge = c.Edge)
    (focus : ∀ node, c'.term.Roots c'.locals node → ∀ frame ∈ c'.frames, c.Avoids node frame)
    (above : c'.frames.Pairwise fun upper lower =>
      ∀ address ∈ upper.thunks, c.Avoids (.thunk address) lower) : c'.Acyclic := by
  unfold Avoids Reaches at focus above
  rw [← edge] at focus above
  refine ⟨?_, focus, above⟩
  rw [edge]
  exact acyclic.loopless

/-- What the innermost frame contributes. -/
theorem top (acyclic : c.Acyclic) {frame : Frame} {below : List Frame} (top : c.frames = frame :: below) :
    (∀ node, c.term.Roots c.locals node → c.Avoids node frame ∧ ∀ lower ∈ below, c.Avoids node lower) ∧
      (∀ address ∈ frame.thunks, ∀ lower ∈ below, c.Avoids (.thunk address) lower) ∧
      below.Pairwise fun upper lower => ∀ address ∈ upper.thunks, c.Avoids (.thunk address) lower := by
  have focus := acyclic.focus
  have above := acyclic.above
  rw [top] at focus above
  obtain ⟨first, rest⟩ := List.pairwise_cons.mp above
  refine ⟨fun node root => List.forall_mem_cons.mp (focus node root), ?_, rest⟩
  exact fun address held lower member => first lower member address held

/-- What the arguments in front contribute. -/
theorem waits (acyclic : c.Acyclic) {arguments : List Nat} {below : List Frame}
    (split : Waits c.frames arguments below) :
    (∀ node, c.term.Roots c.locals node → ∀ lower ∈ below, c.Avoids node lower) ∧
      (∀ address ∈ arguments, ∀ lower ∈ below, c.Avoids (.thunk address) lower) ∧
      below.Pairwise fun upper lower => ∀ address ∈ upper.thunks, c.Avoids (.thunk address) lower := by
  have focus := acyclic.focus
  have above := acyclic.above
  rw [Waits] at split
  rw [split] at focus above
  obtain ⟨-, rest, across⟩ := List.pairwise_append.mp above
  refine ⟨fun node root lower member => focus node root lower (List.mem_append_right _ member), ?_, rest⟩
  intro address held lower member
  exact across (.arg address) (List.mem_map_of_mem held) lower member address List.mem_cons_self

/-- A new thunk leads nowhere where its closure does not. -/
theorem push (acyclic : c.Acyclic) (addressed : c.Addressed) (closure : Closure)
    (known : ∀ address ∈ closure.locals, address < c.heap.size)
    (apart : ∀ node, closure.term.Roots closure.locals node → ∀ frame ∈ c.frames, c.Avoids node frame) :
    let grown : Config := { c with heap := c.heap.push closure }
    grown.Acyclic ∧ ∀ frame ∈ c.frames, grown.Avoids (.thunk c.heap.size) frame := by
  intro grown
  have rewires := rewires_push c closure
  have away : ∀ node, closure.term.Roots closure.locals node →
      ¬ c.Reaches node (.thunk c.heap.size) := by
    intro node root
    refine addressed.not_reaches_size ?_
    rintro rfl
    exact Nat.lt_irrefl _ (known _ root)
  refine ⟨acyclic.rewire rewires away apart rfl rfl rfl, ?_⟩
  rintro frame member address rfl path
  have inside : address < c.heap.size := addressed.frames _ member address List.mem_cons_self
  rcases ReflTransGen.cases_head path with same | ⟨next, first, rest⟩
  · have same := Node.thunk.inj same
    omega
  · have root := rewires.here next first
    have avoids := (apart next root _ member).rewire rewires fun target known => apart target known _ member
    exact avoids address rfl rest

/-- The value of the innermost thunk that waits for one takes its place. -/
theorem update (acyclic : c.Acyclic) {below : List Frame} (inside : thunk < c.heap.size)
    (waits : c.frames = .update thunk :: below) :
    ({ c.updateThunk thunk with frames := below } : Config).Acyclic := by
  have away := (acyclic.top waits).1
  have changed := acyclic.rewire (rewires_modify c inside (·.update c.term c.locals))
    (fun node root => (away node root).1 thunk rfl) acyclic.focus rfl rfl rfl
  obtain ⟨focus, -, above⟩ := changed.top waits
  exact changed.refocus rfl (fun node root => (focus node root).2) above

/-- A global that the machine works on. -/
theorem global (acyclic : c.Acyclic) {index : Nat} {tag : Tag} (focus : c.term = .global index tag) :
    ∀ frame ∈ c.frames, c.Avoids (.global index) frame := by
  refine acyclic.focus _ ?_
  rw [focus]
  exact Term.refersTo_global.mpr rfl

/-- The table of constants gets an entry for the focus: a thunk that refers to what the global refers
to. -/
theorem record (acyclic : c.Acyclic) {index address : Nat} {tag : Tag} {definition : Global}
    (focus : c.term = .global index tag) (found : c.globals[index]? = some definition)
    (only : ∀ node, c.Edge (.thunk address) node →
      ∃ other, node = .global other ∧ definition.term.RefersTo other)
    (avoids : ∀ frame ∈ c.frames, c.Avoids (.thunk address) frame) :
    let made : Config := { c with constants := c.constants.set! index (some address) }
    made.Acyclic ∧ ∀ frame ∈ c.frames, made.Avoids (.thunk address) frame := by
  intro made
  have rewires := rewires_constant c index address
  have away : ∀ target, (c.Edge (.global index) target ∨ target = .thunk address) →
      ¬ c.Reaches target (.global index) := by
    rintro target (edge | rfl) path
    · exact acyclic.loopless _ (.head' edge path)
    · rcases ReflTransGen.cases_head path with same | ⟨next, first, rest⟩
      · cases same
      · obtain ⟨other, rfl, refers⟩ := only next first
        have edge : c.Edge (.global index) (.global other) := ⟨definition, found, refers⟩
        exact acyclic.loopless _ (.head' edge rest)
  have apart : ∀ target, (c.Edge (.global index) target ∨ target = .thunk address) →
      ∀ frame ∈ c.frames, c.Avoids target frame := by
    rintro target (edge | rfl) frame member
    · exact (acyclic.global focus frame member).edge edge
    · exact avoids frame member
  refine ⟨acyclic.rewire rewires away apart rfl rfl rfl, ?_⟩
  intro frame member
  exact (avoids frame member).rewire rewires fun target new => apart target new frame member

/-- A thunk that is made for a global leads nowhere where the global does not. -/
theorem fresh (acyclic : c.Acyclic) (addressed : c.Addressed) {index : Nat} {tag : Tag}
    {definition : Global} (backtrace : Backtrace) (focus : c.term = .global index tag)
    (found : c.globals[index]? = some definition) :
    let made : Config := { c.suspend (Closure.of definition.term [] backtrace) with
      constants := c.constants.set! index (some c.heap.size) }
    made.Acyclic ∧ ∀ frame ∈ c.frames, made.Avoids (.thunk c.heap.size) frame := by
  intro made
  have only : ∀ node, definition.term.Roots [] node →
      ∃ other, node = .global other ∧ definition.term.RefersTo other := by
    rintro (address | other) root
    · cases root
    · exact ⟨other, rfl, root⟩
  have apart : ∀ node, definition.term.Roots [] node → ∀ frame ∈ c.frames, c.Avoids node frame := by
    intro node root frame member
    obtain ⟨other, rfl, refers⟩ := only node root
    exact (acyclic.global focus frame member).edge ⟨definition, found, refers⟩
  obtain ⟨grown, avoids⟩ := acyclic.push addressed (Closure.of definition.term [] backtrace) nofun apart
  have grows := rewires_push c (Closure.of definition.term [] backtrace)
  obtain ⟨recorded, avoids⟩ := grown.record focus found (fun node edge => only node (grows.here node edge)) avoids
  exact ⟨recorded.refocus rfl recorded.focus recorded.above, avoids⟩

/-- The thunk that a step goes on with does not lead to one that waits for its value. -/
theorem demand (acyclic : c.Acyclic) (addressed : c.Addressed) (demand : c.Demands thunk middle) :
    middle.Acyclic ∧ ∀ frame ∈ middle.frames, middle.Avoids (.thunk thunk) frame := by
  cases demand with
  | lookup focus bound =>
    exact ⟨acyclic, acyclic.focus _ (List.mem_of_getElem? bound)⟩
  | constant focus found lazy known =>
    exact ⟨acyclic, fun frame member => (acyclic.global focus frame member).edge known⟩
  | fresh focus found lazy unknown new =>
    subst new
    exact acyclic.fresh addressed _ focus found
  | next focus top strict =>
    obtain ⟨focused, held, rest⟩ := acyclic.top top
    refine ⟨acyclic.refocus rfl ?_ (List.pairwise_cons.mpr ⟨?_, rest⟩), ?_⟩
    · intro node root
      exact List.forall_mem_cons.mpr ⟨nofun, (focused node root).2⟩
    · intro lower member address pending
      exact held address (List.mem_cons_of_mem _ pending) lower member
    · exact List.forall_mem_cons.mpr ⟨nofun, held thunk List.mem_cons_self⟩
  | call focus top enough quiet =>
    obtain ⟨focused, held, rest⟩ := acyclic.waits top
    refine ⟨acyclic.refocus rfl ?_ (List.pairwise_cons.mpr ⟨?_, rest⟩), ?_⟩
    · intro node root
      exact List.forall_mem_cons.mpr ⟨nofun, focused node root⟩
    · intro lower member address pending
      exact held address (List.mem_cons_of_mem _ pending) lower member
    · exact List.forall_mem_cons.mpr ⟨nofun, held thunk List.mem_cons_self⟩

theorem enter (acyclic : c.Acyclic) (avoids : ∀ frame ∈ c.frames, c.Avoids (.thunk thunk) frame)
    (entry : c.Enters thunk after) : after.Acyclic := by
  have apart : ∀ node, c.Edge (.thunk thunk) node → ∀ frame ∈ c.frames, c.Avoids node frame :=
    fun node edge frame member => (avoids frame member).edge edge
  cases entry with
  | done evaluated => exact acyclic.refocus rfl apart acyclic.above
  | pending waiting =>
    refine acyclic.refocus (edge_enter c thunk) ?_ (List.pairwise_cons.mpr ⟨?_, acyclic.above⟩)
    · intro node root
      have edge : c.Edge (.thunk thunk) node := root
      refine List.forall_mem_cons.mpr ⟨?_, apart node edge⟩
      intro address same path
      cases same
      exact acyclic.loopless _ (.head' edge path)
    · intro lower member address held
      rw [List.mem_singleton.mp held]
      exact avoids lower member

/-- An argument is put in front that leads to no thunk that waits for its value. -/
theorem argue (acyclic : c.Acyclic) {address : Nat} {term : Term} {locals : Env}
    (avoids : ∀ frame ∈ c.frames, c.Avoids (.thunk address) frame)
    (focus : ∀ node, term.Roots locals node → ∀ frame ∈ c.frames, c.Avoids node frame) :
    ({ c with term, locals, frames := .arg address :: c.frames } : Config).Acyclic := by
  refine acyclic.refocus rfl ?_ (List.pairwise_cons.mpr ⟨?_, acyclic.above⟩)
  · exact fun node root => List.forall_mem_cons.mpr ⟨nofun, focus node root⟩
  · intro lower member other held
    rw [List.mem_singleton.mp held]
    exact avoids lower member

/-- The focus becomes a term that refers to nothing, under frames that there were. -/
theorem plain (acyclic : c.Acyclic) (edge : c'.Edge = c.Edge) (closed : c'.term.Scoped 0 0)
    (locals : c'.locals = [])
    (above : c'.frames.Pairwise fun upper lower =>
      ∀ address ∈ upper.thunks, c.Avoids (.thunk address) lower) : c'.Acyclic := by
  refine acyclic.refocus edge ?_ above
  rw [locals]
  exact fun node root => absurd root (Term.not_roots_of_closed closed node)

theorem hold (acyclic : c.Acyclic) {operation : Builtin} {tag : Tag} {arguments : List Nat}
    {below : List Frame} (inside : thunk < c.heap.size)
    (top : Waits c.frames arguments (.update thunk :: below)) :
    ({ c with
      term := .applyAll (.builtin operation tag) (Machine.heldArguments arguments.length)
      locals := arguments.reverse, frames := below : Config}.updateThunk thunk).Acyclic := by
  obtain ⟨-, held, above⟩ := acyclic.waits top
  have collected : ({ c with
      term := .applyAll (.builtin operation tag) (Machine.heldArguments arguments.length)
      locals := arguments.reverse, frames := .update thunk :: below } : Config).Acyclic := by
    refine acyclic.refocus rfl ?_ above
    rintro (address | index) root
    · exact held address (List.mem_reverse.mp root)
    · exact absurd root (Term.not_refersTo_of_scoped (Machine.held_scoped _ _ _))
  exact collected.update inside rfl

theorem move (acyclic : c.Acyclic) (addressed : c.Addressed) (move : c.Moves c') : c'.Acyclic := by
  have focused := acyclic.focus
  cases move with
  | enter demand entry =>
    obtain ⟨middle, avoids⟩ := acyclic.demand addressed demand
    exact middle.enter avoids entry
  | share focus bound =>
    rw [focus] at focused
    exact acyclic.argue (acyclic.focus _ (List.mem_of_getElem? bound)) fun node root => focused node root.left
  | @delay left right backtrace focus complex =>
    rw [focus] at focused
    obtain ⟨grown, avoids⟩ := acyclic.push addressed (Closure.of right (right.captured c.locals) backtrace)
      (addressed.captured right) fun node root => focused node root.captured
    have argued := grown.argue avoids fun node root => grown.focus node (focus ▸ root.left)
    exact argued.refocus rfl argued.focus argued.above
  | apply focus top =>
    rw [focus] at focused
    obtain ⟨focused, held, above⟩ := acyclic.top top
    rw [focus] at focused
    refine acyclic.refocus rfl ?_ above
    intro node root
    rcases root.body with rfl | root
    · exact held _ List.mem_cons_self
    · exact (focused node root).2
  | update value top => exact acyclic.update ((addressed.top top).1 _ List.mem_cons_self) top
  | compute focus top both two answer =>
    exact acyclic.plain rfl (Builtin.binary_made answer).scoped rfl (acyclic.top top).2.2
  | talk focus top answer =>
    refine acyclic.plain rfl ?_ rfl (acyclic.top top).2.2
    rcases answer with ⟨-, rfl⟩ | ⟨-, n, rfl⟩
    · exact Machine.Made.identity.scoped
    · exact Term.int_scoped n
  | unfold focus found value =>
    refine acyclic.refocus rfl ?_ acyclic.above
    rintro (address | other) root frame member
    · cases root
    · exact (acyclic.global focus frame member).edge ⟨_, found, root⟩
  | @iterate value thunk backtrace below focus positive top =>
    obtain ⟨grown, avoids⟩ := acyclic.push addressed (Closure.of (.int (value - 1)) [] backtrace) nofun
      fun node root => absurd root (Term.not_roots_of_closed (Term.int_scoped _) node)
    exact grown.argue avoids fun node root => absurd root (Term.not_roots_of_closed Machine.Made.succ.scoped node)
  | vanish focus exhausted top => exact acyclic.plain rfl Machine.Made.zero.scoped rfl acyclic.above
  | hold focus top short =>
    exact acyclic.hold ((addressed.waits top).2 _ List.mem_cons_self _ List.mem_cons_self) top

/-- The thunk that a step cannot go on with would lead to itself. -/
theorem fail_ne_loop (acyclic : c.Acyclic) (addressed : c.Addressed) (single : c.Single)
    {cause : FaultCause} (failure : c.Fails cause c') : cause ≠ .loop := by
  rintro rfl
  obtain ⟨thunk, demand, running⟩ := failure.demand_of_loop
  obtain ⟨-, avoids⟩ := acyclic.demand addressed demand
  have waits : .update thunk ∈ c'.frames := by
    rw [← mem_updating, demand.updating_eq, mem_updating]
    exact single.demanded demand running
  exact avoids _ waits thunk rfl .refl

theorem fail (acyclic : c.Acyclic) (addressed : c.Addressed) {cause : FaultCause}
    (failure : c.Fails cause c') : c'.Acyclic := by
  cases failure with
  | loop demand running => exact (acyclic.demand addressed demand).1
  | abort value top | mismatch value function top | compute focus top | talk focus top
  | wrongCount focus top =>
    obtain ⟨focused, -, above⟩ := acyclic.top top
    exact acyclic.refocus rfl (fun node root => (focused node root).2) above
  | _ => exact acyclic

/-- On a new machine only globals refer to anything, and each of them to earlier ones. -/
theorem start {globals : Array Global} (stratified : Stratified globals) (streams : Streams)
    (interrupt : Interrupt) (options : Options) (entry : Term) :
    ((Machine.start globals streams interrupt options).load entry).config.Acyclic := by
  refine ⟨?_, nofun, .nil⟩
  have earlier : ∀ node other,
      Edge ((Machine.start globals streams interrupt options).load entry).config node other →
      ∃ index smaller, node = .global index ∧ other = .global smaller ∧ smaller < index := by
    rintro (address | index) other edge
    · rw [Edge, Machine.start_closureAt] at edge
      exact absurd edge (Term.not_roots_of_closed (Term.int_scoped _) other)
    · cases other with
      | thunk address => exact (Machine.start_constants _ _ _ _ _ _ _ edge).elim
      | global smaller =>
        obtain ⟨definition, found, refers⟩ := edge
        exact ⟨index, smaller, rfl, rfl, (stratified index definition found).refersTo_lt refers⟩
  have descends : ∀ node other,
      TransGen (Edge ((Machine.start globals streams interrupt options).load entry).config) node other →
      ∃ index smaller, node = .global index ∧ other = .global smaller ∧ smaller < index := by
    intro node other path
    induction path with
    | single edge => exact earlier _ _ edge
    | tail _ edge ih =>
      obtain ⟨index, middle, same, rfl, less⟩ := ih
      obtain ⟨between, smaller, middleSame, rfl, further⟩ := earlier _ _ edge
      cases middleSame
      exact ⟨index, smaller, same, rfl, Nat.lt_trans further less⟩
  intro node cycle
  obtain ⟨index, smaller, rfl, same, less⟩ := descends node node cycle
  cases same
  exact Nat.lt_irrefl _ less

end Acyclic

end Config

namespace Machine

open Config

/-- Every configuration of a run over a stratified table is acyclic. -/
theorem steps_acyclic {globals : Array Global} (stratified : Stratified globals) (streams : Streams)
    (interrupt : Interrupt) (options : Options) (entry : Term) (fuel : Nat) :
    (steps fuel ((start globals streams interrupt options).load entry)).2.config.Acyclic := by
  have kept := steps_keep (P := fun c => c.Addressed ∧ c.Acyclic) ?_ ?_ fuel
    ((start globals streams interrupt options).load entry) ⟨.start .., .start stratified ..⟩
  · exact kept.2
  · rintro c c' ⟨addressed, acyclic⟩ move
    exact ⟨addressed.move move, acyclic.move addressed move⟩
  · rintro c cause c' ⟨addressed, acyclic⟩ failure
    exact ⟨addressed.fail failure, acyclic.fail addressed failure⟩

/-- A run over a stratified table finds no value that is needed to compute itself. -/
theorem steps_ne_loop {globals : Array Global} (stratified : Stratified globals) (streams : Streams)
    (interrupt : Interrupt) (options : Options) (entry : Term) (fuel : Nat) {fault : Fault}
    (faulted : (steps fuel ((start globals streams interrupt options).load entry)).1 = .fault fault) :
    fault.cause ≠ .loop := by
  have ends := steps_ends (P := fun c => c.Addressed ∧ c.Single ∧ c.Acyclic) ?_ fuel
    ((start globals streams interrupt options).load entry)
    ⟨.start .., .start .., .start stratified ..⟩
  · rw [faulted] at ends
    obtain ⟨c, ⟨addressed, single, acyclic⟩, failure⟩ := ends
    exact acyclic.fail_ne_loop addressed single failure
  · rintro c c' ⟨addressed, single, acyclic⟩ move
    exact ⟨addressed.move move, single.move addressed move, acyclic.move addressed move⟩

/-- The thunks of a bound module stay acyclic while its entry runs, and the run meets no loop. -/
theorem run_acyclic {text : String} {program : Module} (bound : (bindModule text).result = .ok program)
    (streams : Streams) (interrupt : Interrupt) (options : Options) (fuel : Nat) :
    let entry := program.entry.term
    let machine := start program.globals streams interrupt options
    (steps fuel (machine.load entry)).2.config.Acyclic ∧
      ∀ fault, (machine.run fuel entry).1 = .fault fault → fault.cause ≠ .loop := by
  intro entry machine
  have stratified := (bindModule_wellScoped bound).globals
  refine ⟨steps_acyclic stratified streams interrupt options entry fuel, ?_⟩
  intro fault faulted
  rcases conclude_fault faulted with result | ⟨error, cause⟩
  · exact steps_ne_loop stratified streams interrupt options entry fuel result
  · rw [cause]
    nofun

theorem run_acyclic_square : ∃ program, (bindModule squareSource).result = .ok program ∧
    ∀ fault, ((start program.globals (.ofReader []) .never ⟨0, false, false⟩).run 40
      program.entry.term).1 = .fault fault → fault.cause ≠ .loop := by
  obtain ⟨program, bound, -⟩ := bindModule_square
  exact ⟨program, bound, (run_acyclic bound (.ofReader []) .never ⟨0, false, false⟩ 40).2⟩

end Machine

end MixfixLambda
