import MixfixLambda.Proofs.Bind.Located
import MixfixLambda.Proofs.Machine.Scoping

/-!
# Where faults point to

A fault points to the tag that the machine works on or to the newest reference of its backtrace, whichever is
written in the module. Tags come from the entry and from globals, and wait in closures, in frames and in their
backtraces; a step makes no tag with a place of its own. So every place that a run reports is that of a tag of
the program, and that is a place of the source.
-/
namespace MixfixLambda

variable {places : Span → Prop}

/-- The places of all references in a backtrace. -/
def Backtrace.Within (places : Span → Prop) (b : Backtrace) : Prop :=
  ∀ tag ∈ b, tag.Within places

theorem Backtrace.push_within {b : Backtrace} {tag : Tag} (within : b.Within places) (named : tag.Within places) :
    (b.push tag).Within places := fun other member =>
  List.forall_mem_cons.2 ⟨named, within⟩ other (List.mem_of_mem_take member)

/-- The places of a closure's term and of the references that led to it. -/
structure Closure.Within (places : Span → Prop) (c : Closure) : Prop where
  term : c.term.Within places
  backtrace : Backtrace.Within places c.backtrace

/-- The places of an operation that waits, and of the references that led to it. -/
def Frame.Within (places : Span → Prop) : Frame → Prop
  | .arg _ | .update _ => True
  | .force _ tag _ _ backtrace => tag.Within places ∧ backtrace.Within places

/-- The place of a fault, if it has one. -/
def Fault.Within (places : Span → Prop) (fault : Fault) : Prop :=
  ∀ place ∈ fault.span, places place

namespace Spine

theorem mem_of_mem_pop {s : Spine} {frame : Frame} (member : frame ∈ s.pop.frames) : frame ∈ s.frames := by
  obtain ⟨frames, depth, same⟩ := s
  cases frames with
  | nil => cases member
  | cons first frames => exact List.mem_cons_of_mem _ member

theorem mem_of_mem_popArguments {count : Nat} {s : Spine} {frame : Frame}
    (member : frame ∈ (s.popArguments count).2.frames) : frame ∈ s.frames := by
  induction count generalizing s with
  | zero => exact member
  | succ count ih =>
    unfold popArguments at member
    split at member
    · exact mem_of_mem_pop (ih member)
    · exact member

end Spine

namespace Machine

theorem Made.within {t : Term} (made : Made t) : t.Within places := by
  cases made with
  | int value => trivial
  | boolean value => cases value <;> simp [Builtin.boolean, Builtin.v]
  | identity => simp [Machine.identity, Builtin.v]
  | zero => simp [Machine.zero, Builtin.v]
  | succ => simp [Machine.succ, Builtin.v]

theorem heldArguments_within (count : Nat) : ∀ t ∈ heldArguments count, t.Within places := by
  intro t member
  obtain ⟨i, -, rfl⟩ := List.mem_map.1 member
  exact Tag.synthetic_within _

/-- The places of all tags that the machine may come to. -/
structure Within (places : Span → Prop) (m : Machine) : Prop where
  globals : ∀ (index : Nat) (g : Global), m.globals[index]? = some g → g.term.Within places
  focus : m.term.Within places
  backtrace : Backtrace.Within places m.backtrace
  closures : ∀ thunk, (m.heap.closureAt thunk).Within places
  frames : ∀ frame ∈ m.spine.frames, frame.Within places

end Machine

/-- The places of what a step comes to. -/
def StepResult.Within (places : Span → Prop) : StepResult → Prop
  | .running m | .finished _ m => m.Within places
  | .faulted fault m => fault.Within places ∧ m.Within places

namespace Machine.Within

variable {m : Machine} {term : Term} {locals : Env} {backtrace : Backtrace}

theorem refocus (within : m.Within places) (focus : term.Within places) (locals : Env) :
    ({ m with term, locals } : Machine).Within places :=
  { within with focus }

theorem retrace (within : m.Within places) (traced : backtrace.Within places) :
    ({ m with backtrace } : Machine).Within places :=
  { within with backtrace := traced }

theorem push (within : m.Within places) (frame : Frame) (waits : frame.Within places) :
    ({ m with spine := m.spine.push frame } : Machine).Within places :=
  { within with frames := List.forall_mem_cons.2 ⟨waits, within.frames⟩ }

/-- The spine loses frames. -/
theorem drop {spine : Spine} (within : m.Within places) (fewer : ∀ frame ∈ spine.frames, frame ∈ m.spine.frames) :
    ({ m with spine } : Machine).Within places :=
  { within with frames := fun frame member => within.frames frame (fewer frame member) }

theorem alloc {closure : Closure} (within : m.Within places) (new : closure.Within places) :
    (m.alloc closure).2.Within places :=
  { within with closures := Heap.forall_closureAt_push (Closure.Within places) within.closures new }

theorem modify (within : m.Within places) (thunk : Nat) {f : Closure → Closure}
    (changed : (f (m.heap.closureAt thunk)).Within places) :
    ({ m with heap := m.heap.modify thunk f } : Machine).Within places :=
  { within with closures := Heap.forall_closureAt_modify (Closure.Within places) within.closures changed }

/-- Counters, streams and settings have no places. -/
theorem of_eq {m' : Machine} (within : m.Within places) (globals : m'.globals = m.globals) (term : m'.term = m.term)
    (backtrace : m'.backtrace = m.backtrace) (heap : m'.heap = m.heap) (spine : m'.spine = m.spine) :
    m'.Within places where
  globals := globals ▸ within.globals
  focus := term ▸ within.focus
  backtrace := backtrace ▸ within.backtrace
  closures := heap ▸ within.closures
  frames := spine ▸ within.frames

/-- A fault is at the tag if that is one of the module, else at the newest reference that is. -/
theorem fault (within : m.Within places) (cause : FaultCause) {tag : Option Tag}
    (named : ∀ shown ∈ tag, shown.Within places) : (m.faultAt cause tag).Within places := by
  intro place shown
  unfold faultAt at shown
  dsimp only at shown
  split at shown
  · cases shown
  · obtain ⟨found, here, rfl⟩ := Option.map_eq_some_iff.1 shown
    rcases Option.or_eq_some_iff.1 here with first | ⟨-, newest⟩
    · obtain ⟨same, origin⟩ := Option.filter_eq_some_iff.1 first
      exact named found same (beq_iff_eq.1 origin)
    · have origin := List.find?_some newest
      exact within.backtrace found (List.mem_of_find?_eq_some newest) (beq_iff_eq.1 origin)

theorem fail (within : m.Within places) (cause : FaultCause) {tag : Option Tag}
    (named : ∀ shown ∈ tag, shown.Within places) : (m.fail cause tag).Within places :=
  ⟨within.fault cause named, within⟩

theorem enter (within : m.Within places) (thunk : Nat) : (m.enter thunk).Within places := by
  have closure := within.closures thunk
  unfold Machine.enter
  dsimp only
  split
  · exact within.fail _ (by simp)
  · exact (within.refocus closure.term _).retrace closure.backtrace
  · have running := within.modify thunk (f := fun c => { c with state := .running }) ⟨closure.term, closure.backtrace⟩
    exact ((running.refocus closure.term _).retrace closure.backtrace).push _ trivial

theorem updateThunk (within : m.Within places) (thunk : Nat) : (m.updateThunk thunk).Within places := by
  have closure := within.closures thunk
  have counted : m.countUpdate.Within places := within.of_eq rfl rfl rfl rfl rfl
  exact counted.modify thunk ⟨within.focus, closure.backtrace⟩

/-- The thunk of an argument keeps the references that led to it. -/
theorem delay (within : m.Within places) (argument : term.Within places) :
    (m.delay term).2.Within places ∧ ∀ e, (m.delay term).1 = .error e → e.2.Within places := by
  have suspended (locals : Env) :
      (m.countThunk.alloc (Closure.of term locals m.backtrace)).2.Within places :=
    (within.of_eq rfl rfl rfl rfl rfl : m.countThunk.Within places).alloc ⟨argument, within.backtrace⟩
  cases term with
  | var depth tag =>
    unfold Machine.delay
    dsimp only
    cases m.locals[depth]? with
    | some thunk => exact ⟨within, nofun⟩
    | none =>
      refine ⟨within, ?_⟩
      rintro _ ⟨⟩
      exact argument
  | _ => exact ⟨suspended _, nofun⟩

theorem constant (within : m.Within places) (index : Nat) (value : term.Within places) :
    (m.constant index term).2.Within places := by
  have grown : (m.countThunk.alloc (Closure.of term [] m.backtrace)).2.Within places :=
    (within.of_eq rfl rfl rfl rfl rfl : m.countThunk.Within places).alloc ⟨value, within.backtrace⟩
  unfold Machine.constant
  split
  · exact within
  · exact grown.of_eq rfl rfl rfl rfl rfl

/-- What an operation answers is made by the machine. -/
theorem primitive {m' : Machine} {answer : Except FaultCause Term} (within : m.Within places) {operation : Builtin}
    {values : List Int} (outcome : m.primitive operation values = (answer, m')) :
    m'.Within places ∧ ∀ t, answer = .ok t → t.Within places := by
  have streamed (streams : Streams) : ({ m with streams } : Machine).Within places :=
    within.of_eq rfl rfl rfl rfl rfl
  have made {t : Term} (made : Made t) : ∀ other, Except.ok (ε := FaultCause) t = .ok other → other.Within places :=
    fun _ same => Except.ok.inj same ▸ made.within
  unfold Machine.primitive at outcome
  split at outcome
  · split at outcome
    · dsimp only [onStreams] at outcome
      split at outcome
      · cases outcome
        exact ⟨streamed _, made .identity⟩
      · cases outcome
        exact ⟨streamed _, nofun⟩
    · cases outcome
      exact ⟨within, nofun⟩
  · dsimp only [onStreams] at outcome
    split at outcome
    · cases outcome
      exact ⟨streamed _, made (.int _)⟩
    · cases outcome
      exact ⟨streamed _, nofun⟩
  all_goals
    cases outcome
    refine ⟨within, fun t accepted => ?_⟩
  · cases accepted
  · cases accepted
  · cases accepted
  · exact (Builtin.binary_made accepted).within
  · cases accepted

/-- The machine holds a value, and what waits for it has its places. -/
theorem settle (within : m.Within places) : m.settle.Within places := by
  have below : ({ m with spine := m.spine.pop } : Machine).Within places := within.drop fun _ => Spine.mem_of_mem_pop
  have waits : ∀ frame, m.spine.top? = some frame → frame.Within places := fun frame top =>
    within.frames frame (List.mem_of_mem_head? top)
  unfold Machine.settle
  split
  · exact within
  · exact within.fail _ (by simp)
  · exact below.updateThunk _
  · next tag values pending backtrace top =>
    obtain ⟨named, traced⟩ := waits _ top
    have flushed : ({ m with spine := m.spine.pop, streams := (m.streams.flush .errors).2 } : Machine).Within places :=
      below.of_eq rfl rfl rfl rfl rfl
    exact (flushed.retrace traced).fail _ (by simpa using named)
  · next operation tag values pending backtrace strict top =>
    obtain ⟨named, traced⟩ := waits _ top
    dsimp only
    split
    · split
      · exact (below.push (.force operation tag _ _ backtrace) ⟨named, traced⟩).enter _
      · split
        · next outcome =>
          obtain ⟨rest, made⟩ := (below.retrace traced).primitive outcome
          exact rest.refocus (made _ rfl) []
        · next outcome => exact ((below.retrace traced).primitive outcome).1.fail _ (by simpa using named)
    · exact below.fail _ (by simpa using named)

/-- An operation short of arguments, or the operation that waits for it, is where a fault is. -/
theorem partialApplication (within : m.Within places) (operation : Builtin) {tag : Tag} (named : tag.Within places)
    (available : Nat) : (m.partialApplication operation tag available).Within places := by
  have below {spine : Spine} (fewer : ∀ frame ∈ spine.frames, frame ∈ m.spine.frames) :
      ({ m with spine := spine.pop } : Machine).Within places :=
    within.drop fun _ member => fewer _ (Spine.mem_of_mem_pop member)
  have inside {frame : Frame} (top : (m.spine.drop available).top? = some frame) : frame.Within places :=
    within.frames frame (List.mem_of_mem_drop (List.mem_of_mem_head? top))
  unfold Machine.partialApplication
  split
  · have rest := below fun _ => @Spine.mem_of_mem_popArguments available m.spine _
    dsimp only
    split
    · refine (rest.refocus ?_ _).updateThunk _
      exact (Term.applyAll_within _ _).2 ⟨named, heldArguments_within _⟩
    · exact rest.fail _ (by simpa using named)
  · next top => exact within.fail _ (by simpa using (inside top).1)
  · exact within.fail _ (by simpa using named)

/-- The first of an operation's arguments is evaluated while the operation waits. -/
theorem collect (within : m.Within places) (operation : Builtin) {tag : Tag} (named : tag.Within places)
    (first : Nat) (pending : List Nat) :
    (({ m with spine := m.spine.push (.force operation tag [] pending m.backtrace) } : Machine).enter first).Within
      places :=
  (within.push (.force operation tag [] pending m.backtrace) ⟨named, within.backtrace⟩).enter first

theorem call (within : m.Within places) (operation : Builtin) {tag : Tag} (named : tag.Within places)
    (arguments : List Nat) : (m.call operation tag arguments).Within places := by
  have flushed : ({ m with streams := (m.streams.flush .output).2, aborting := true } : Machine).Within places :=
    within.of_eq rfl rfl rfl rfl rfl
  unfold Machine.call
  cases arguments with
  | nil =>
    dsimp only
    split
    · exact flushed.fail _ (by simpa using named)
    · exact within.fail _ (by simpa using named)
  | cons first pending =>
    dsimp only
    split
    · exact flushed.collect operation named first pending
    · exact within.collect operation named first pending

theorem unfold (within : m.Within places) (value : Int) : (m.unfold value).Within places := by
  have counted : ({ m with locals := [], stats := { m.stats with unfolds := m.stats.unfolds + 1 } } : Machine).Within
      places := within.of_eq rfl rfl rfl rfl rfl
  have new : (Closure.of (.int (value - 1)) [] m.backtrace).Within places := ⟨trivial, within.backtrace⟩
  unfold Machine.unfold
  dsimp only
  split
  · exact ((counted.alloc new).push (.arg _) trivial).refocus Made.succ.within _
  · exact counted.refocus Made.zero.within _

/-- Every reduction keeps the places, and a fault is at one of them. -/
theorem reduce (within : m.Within places) : m.reduce.Within places := by
  have focused := within.focus
  unfold Machine.reduce
  split
  · next left right focus =>
    rw [focus] at focused
    obtain ⟨rest, named⟩ := within.delay focused.2
    split
    · next outcome =>
      rw [outcome] at rest
      exact (rest.push (.arg _) trivial).refocus focused.1 _
    · next outcome =>
      rw [outcome] at rest named
      exact rest.fail _ (by simpa using named _ rfl)
  · next tag body focus =>
    rw [focus, Term.lam_within] at focused
    split
    · exact (within.drop fun _ => Spine.mem_of_mem_pop).refocus focused _
    · exact within.settle
  · next depth tag focus =>
    rw [focus] at focused
    split
    · exact within.enter _
    · exact within.fail _ (by simpa using focused)
  · next index tag focus =>
    rw [focus] at focused
    have traced := within.retrace (Backtrace.push_within within.backtrace focused)
    dsimp only
    split
    · exact traced.fail _ (by simpa using focused)
    · next definition found =>
      have value := within.globals index definition found
      split
      · exact traced.refocus value []
      · exact (traced.constant index value).enter _
  · split
    · exact within.unfold _
    · exact within.settle
  · next operation tag focus =>
    rw [focus] at focused
    dsimp only
    split
    · exact within.partialApplication operation focused _
    · exact (within.drop fun _ => Spine.mem_of_mem_popArguments).call operation focused _

theorem step (within : m.Within places) : m.step.Within places := by
  have ticked : m.tick.Within places := by
    unfold tick
    dsimp only
    split
    · exact within.of_eq rfl rfl rfl rfl rfl
    · exact within.of_eq rfl rfl rfl rfl rfl
  unfold Machine.step
  dsimp only
  split
  · exact ticked.fail _ (by simp)
  · exact ticked.reduce

/-- A run keeps the places, and a fault is at one of them. -/
theorem steps (within : m.Within places) (fuel : Nat) :
    (Machine.steps fuel m).2.Within places ∧
      ∀ fault, (Machine.steps fuel m).1 = .fault fault → fault.Within places := by
  induction fuel generalizing m with
  | zero =>
    refine ⟨within, ?_⟩
    rintro _ ⟨⟩
  | succ fuel ih =>
    have next := within.step
    unfold Machine.steps
    cases outcome : m.step with
    | running m' =>
      rw [outcome] at next
      exact ih next
    | finished value m' =>
      rw [outcome] at next
      refine ⟨next, ?_⟩
      rintro _ ⟨⟩
    | faulted fault m' =>
      rw [outcome] at next
      refine ⟨next.2, ?_⟩
      rintro _ ⟨⟩
      exact next.1

/-- What an earlier run has left keeps its places. -/
theorem load (within : m.Within places) (entry : term.Within places) : (m.load term).Within places where
  globals := within.globals
  focus := entry
  backtrace := fun _ member => nomatch member
  closures := within.closures
  frames := fun _ member => nomatch member

/-- The flushes at the end have no place. -/
theorem conclude (within : m.Within places) {result : RunResult}
    (held : ∀ fault, result = .fault fault → fault.Within places) :
    (Machine.conclude result m).2.Within places ∧
      ∀ fault, (Machine.conclude result m).1 = .fault fault → fault.Within places := by
  have idle (streams : Streams) :
      ({ m with streams, spine := .empty, term := .int 0, locals := [] } : Machine).Within places :=
    ⟨within.globals, trivial, within.backtrace, within.closures, fun _ member => nomatch member⟩
  unfold Machine.conclude
  dsimp only
  split
  · refine ⟨idle _, ?_⟩
    rintro _ ⟨⟩ _ ⟨⟩
  · exact ⟨idle _, held⟩

theorem run (within : m.Within places) (entry : term.Within places) (fuel : Nat) :
    (m.run fuel term).2.Within places ∧ ∀ fault, (m.run fuel term).1 = .fault fault → fault.Within places := by
  obtain ⟨last, held⟩ := (within.load entry).steps fuel
  exact last.conclude held

theorem runs (within : m.Within places) (entry : term.Within places) (fuels : List Nat) :
    (fuels.foldl (fun m fuel => (m.run fuel term).2) m).Within places := by
  induction fuels generalizing m with
  | nil => exact within
  | cons fuel fuels ih => exact ih (within.run entry fuel).1

end Machine.Within

namespace Machine

theorem start_within {globals : Array Global}
    (inside : ∀ (index : Nat) (g : Global), globals[index]? = some g → g.term.Within places) (streams : Streams)
    (interrupt : Interrupt) (options : Options) : (start globals streams interrupt options).Within places where
  globals := inside
  focus := trivial
  backtrace := fun _ member => nomatch member
  closures := fun _ => ⟨trivial, fun _ member => nomatch member⟩
  frames := fun _ member => nomatch member

end Machine

/-- A variable, an operation or a reference of the program has the tag. -/
def Module.Mentions (m : Module) (tag : Tag) : Prop :=
  tag ∈ m.entry.term.tags ∨ ∃ g ∈ m.globals, tag ∈ g.term.tags

/-- What a bound module mentions and has written itself stands in its source. -/
theorem Module.Mentions.located {text : String} {program : Module} {tag : Tag}
    (bound : (bindModule text).result = .ok program) (mentions : program.Mentions tag) :
    tag.Within (Located text) := by
  obtain ⟨globals, entry⟩ := bindModule_within bound
  rcases mentions with inside | ⟨g, member, inside⟩
  · exact Term.within_iff.1 entry tag inside
  · exact Term.within_iff.1 (globals g member).2 tag inside

namespace Machine

/-- However often the entry of a bound module is run on one machine, the place of a fault is inside the source
and not empty. It is that of a word, or what the parts of a chain or of a declared bracket cover, and the fault
has it from a tag of the program that the module has written, so that it is no place of the prelude. -/
theorem run_fault_located {text : String} {program : Module}
    (bound : (bindModule text).result = .ok program) (streams : Streams) (interrupt : Interrupt)
    (options : Options) (fuels : List Nat) (fuel : Nat) :
    let entry := program.entry.term
    let first := start program.globals streams interrupt options
    let machine := fuels.foldl (fun m fuel => (m.run fuel entry).2) first
    ∀ fault place, (machine.run fuel entry).1 = .fault fault → fault.span = some place →
      place.start < place.stop ∧ place.stop ≤ text.utf8ByteSize ∧ Located text place ∧
        ∃ tag, program.Mentions tag ∧ tag.origin = .module ∧ tag.span = place := by
  intro entry first machine fault place faulted shown
  let written : Span → Prop := fun place =>
    Located text place ∧ ∃ tag, program.Mentions tag ∧ tag.origin = .module ∧ tag.span = place
  have mentioned : ∀ tag, program.Mentions tag → tag.Within written := fun tag mentions module =>
    ⟨mentions.located bound module, tag, mentions, module, rfl⟩
  have entered : entry.Within written := Term.within_iff.2 fun tag inside => mentioned tag (.inl inside)
  have globals : ∀ (index : Nat) (g : Global), program.globals[index]? = some g → g.term.Within written :=
    fun index g found => Term.within_iff.2 fun tag inside =>
      mentioned tag (.inr ⟨g, Array.mem_of_getElem? found, inside⟩)
  have ready := (start_within globals streams interrupt options).runs entered fuels
  obtain ⟨located, tag⟩ := (ready.run entered fuel).2 fault faulted place shown
  exact ⟨located.extent.1, located.extent.2, located, tag⟩

end Machine

/-- A module whose only operator refuses its operands. -/
def quotientSource : String :=
  "1 / 0"

def quotientTag : Tag :=
  ⟨"/", ⟨2, 3⟩, .module⟩

/-- The entry of that module. -/
def quotientTerm : Term :=
  .app (.app (.builtin .div quotientTag) (.int 1)) (.int 0)

/-- Whether a tree is that quotient. -/
def Tree.isQuotient : Tree → Bool
  | .infixOp operator (.int 1 _) (.int 0 _) => operator == quotientTag
  | _ => false

theorem parse_quotient : (parse quotientSource .module).toOption.any Tree.isQuotient = true := by
  decide +kernel

theorem bindItems_quotient {b : Binder} {t : Tree} (outside : b.locals = []) (quotient : t.isQuotient = true) :
    Binder.bindItems t b = (.ok (some quotientTerm), b) := by
  unfold Tree.isQuotient at quotient
  split at quotient
  · rw [beq_iff_eq] at quotient
    subst quotient
    obtain ⟨globals, names, locals, warnings⟩ := b
    cases outside
    rfl
  · cases quotient

/-- The prelude is only named here: what the module needs of it is that it leaves no local behind. -/
theorem bindModule_quotient :
    ∃ m, (bindModule quotientSource).result = .ok m ∧ m.entry.term = quotientTerm := by
  obtain ⟨t, parsed, quotient⟩ := exists_ok_of_any parse_quotient
  obtain ⟨_, square, -⟩ := bindModule_square
  obtain ⟨b, prelude, -⟩ := bindModule_success square
  have ran : (Binder.bindItems t >>= fun expression =>
      Binder.finish expression (Span.point quotientSource.utf8ByteSize)) b =
      (.ok (.expression quotientTerm), b) := by
    rw [BindM.bind_apply, bindItems_quotient (Binder.ofSource_atTop prelude).locals quotient]
    rfl
  refine ⟨⟨b.globals, .expression quotientTerm⟩, ?_, rfl⟩
  rw [bindModule, prelude, bindOn]
  dsimp only
  rw [parsed]
  dsimp only
  split
  · next outcome => cases ran.symm.trans outcome
  · next outcome =>
    cases ran.symm.trans outcome
    rfl

namespace Machine

theorem run_fault_located_quotient : ∃ program fault, (bindModule quotientSource).result = .ok program ∧
    ((start program.globals (.ofReader []) .never ⟨0, false, false⟩).run 6 program.entry.term).1 = .fault fault ∧
    fault.span = some ⟨2, 3⟩ ∧ 3 ≤ quotientSource.utf8ByteSize ∧ Located quotientSource ⟨2, 3⟩ := by
  obtain ⟨program, bound, entry⟩ := bindModule_quotient
  have faulted : ((start program.globals (.ofReader []) .never ⟨0, false, false⟩).run 6 program.entry.term).1 =
      .fault ⟨.divideByZero, some ⟨2, 3⟩, []⟩ := by
    rw [entry]
    rfl
  obtain ⟨-, stop, located, -⟩ :=
    run_fault_located bound (.ofReader []) .never ⟨0, false, false⟩ [] 6 _ ⟨2, 3⟩ faulted rfl
  exact ⟨program, _, bound, faulted, rfl, stop, located⟩

end Machine

end MixfixLambda
