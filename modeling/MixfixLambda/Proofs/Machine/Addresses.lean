import MixfixLambda.Proofs.Machine.Runs

/-!
# Addresses

Nothing in a machine refers to a thunk that is not on the heap: not the variables in scope, not a frame,
not the table of constants, and not a closure. Every step keeps that, whatever term it works on.
-/
namespace MixfixLambda

/-- The thunks that a frame refers to. -/
def Frame.thunks : Frame → List Nat
  | .arg thunk | .update thunk => [thunk]
  | .force _ _ _ pending _ => pending

namespace Config

/-- Every thunk that is referred to is on the heap. -/
structure Addressed (c : Config) : Prop where
  locals : ∀ thunk ∈ c.locals, thunk < c.heap.size
  frames : ∀ frame ∈ c.frames, ∀ thunk ∈ frame.thunks, thunk < c.heap.size
  constants : ∀ (index thunk : Nat), c.constants[index]? = some (some thunk) → thunk < c.heap.size
  closures : ∀ thunk, ∀ kept ∈ (c.heap.closureAt thunk).locals, kept < c.heap.size

end Config

namespace Heap

/-- What holds of every closure and of a new one holds of every closure with it. -/
theorem forall_closureAt_push (P : Closure → Prop) {h : Heap} {c : Closure}
    (old : ∀ thunk, P (closureAt h thunk)) (new : P c) (thunk : Nat) :
    P (closureAt (h.push c) thunk) := by
  rw [closureAt_push]
  split
  · exact new
  · exact old thunk

theorem forall_closureAt_modify (P : Closure → Prop) {h : Heap} {f : Closure → Closure} {changed : Nat}
    (old : ∀ thunk, P (closureAt h thunk)) (new : P (f (closureAt h changed))) (thunk : Nat) :
    P (closureAt (h.modify changed f) thunk) := by
  rw [closureAt_modify]
  split
  · next same => exact same.1 ▸ new
  · exact old thunk

end Heap

/-- What is known of the table of constants after an entry has been made. -/
theorem getElem?_set!_eq_some {constants : Array (Option Nat)} {place index thunk known : Nat}
    (entry : (constants.set! place (some thunk))[index]? = some (some known)) :
    index = place ∧ known = thunk ∨ index ≠ place ∧ constants[index]? = some (some known) := by
  rw [Array.set!_eq_setIfInBounds, Array.getElem?_setIfInBounds] at entry
  split at entry
  · next same =>
    split at entry
    · exact .inl ⟨same.symm, by simpa using entry.symm⟩
    · cases entry
  · next different => exact .inr ⟨fun same => different same.symm, entry⟩

namespace Config.Addressed

variable {c c' middle after : Config} {thunk : Nat}

/-- The variables of a term that is suspended are those of the configuration, or none. -/
theorem captured (addressed : c.Addressed) (term : Term) :
    ∀ thunk ∈ term.captured c.locals, thunk < c.heap.size := by
  intro thunk member
  cases term with
  | lam tag body => exact addressed.locals thunk member
  | app left right => exact addressed.locals thunk member
  | _ => cases member

theorem push (addressed : c.Addressed) (closure : Closure)
    (known : ∀ thunk ∈ closure.locals, thunk < c.heap.size) :
    ({ c with heap := c.heap.push closure } : Config).Addressed := by
  have grow : ∀ thunk, thunk < c.heap.size → thunk < (c.heap.push closure).size := by
    intro thunk inside
    rw [Array.size_push]
    omega
  refine ⟨?_, ?_, ?_, ?_⟩
  · intro thunk member
    exact grow thunk (addressed.locals thunk member)
  · intro frame member thunk held
    exact grow thunk (addressed.frames frame member thunk held)
  · intro index thunk entry
    exact grow thunk (addressed.constants index thunk entry)
  · refine Heap.forall_closureAt_push (fun closure => ∀ kept ∈ closure.locals, kept < _) ?_ ?_
    · intro thunk kept member
      exact grow kept (addressed.closures thunk kept member)
    · intro kept member
      exact grow kept (known kept member)

theorem modify (addressed : c.Addressed) (changed : Nat) (f : Closure → Closure)
    (known : ∀ thunk ∈ (f (c.heap.closureAt changed)).locals, thunk < c.heap.size) :
    ({ c with heap := c.heap.modify changed f } : Config).Addressed := by
  refine ⟨?_, ?_, ?_, ?_⟩
  · simpa only [Array.size_modify] using addressed.locals
  · simpa only [Array.size_modify] using addressed.frames
  · simpa only [Array.size_modify] using addressed.constants
  · simpa only [Array.size_modify] using
      Heap.forall_closureAt_modify (fun closure => ∀ kept ∈ closure.locals, kept < c.heap.size)
        addressed.closures known

theorem updateThunk (addressed : c.Addressed) (thunk : Nat) : (c.updateThunk thunk).Addressed := by
  have changed := addressed.modify thunk (·.update c.term c.locals) addressed.locals
  exact ⟨changed.locals, changed.frames, changed.constants, changed.closures⟩

/-- Frames are left out, and others hold no new thunks. -/
theorem reframe (addressed : c.Addressed) {frames : List Frame}
    (known : ∀ frame ∈ frames, ∀ thunk ∈ frame.thunks, thunk < c.heap.size) :
    ({ c with frames } : Config).Addressed :=
  ⟨addressed.locals, known, addressed.constants, addressed.closures⟩

theorem refocus (addressed : c.Addressed) {locals : Env} (known : ∀ thunk ∈ locals, thunk < c.heap.size)
    (term : Term) : ({ c with term, locals } : Config).Addressed :=
  ⟨known, addressed.frames, addressed.constants, addressed.closures⟩

/-- The arguments in front and the frames behind them. -/
theorem waits (addressed : c.Addressed) {arguments : List Nat} {below : List Frame}
    (split : Waits c.frames arguments below) :
    (∀ thunk ∈ arguments, thunk < c.heap.size) ∧
      ∀ frame ∈ below, ∀ thunk ∈ frame.thunks, thunk < c.heap.size := by
  have frames := addressed.frames
  rw [Waits] at split
  rw [split] at frames
  refine ⟨?_, ?_⟩
  · intro thunk member
    exact frames (.arg thunk) (by simp [member]) thunk (by simp [Frame.thunks])
  · intro frame member
    exact frames frame (List.mem_append_right _ member)

theorem top (addressed : c.Addressed) {frame : Frame} {below : List Frame}
    (top : c.frames = frame :: below) :
    (∀ thunk ∈ frame.thunks, thunk < c.heap.size) ∧
      ∀ frame ∈ below, ∀ thunk ∈ frame.thunks, thunk < c.heap.size := by
  have frames := addressed.frames
  rw [top] at frames
  exact ⟨frames frame List.mem_cons_self, fun other member => frames other (List.mem_cons_of_mem _ member)⟩

theorem demand (addressed : c.Addressed) (demand : c.Demands thunk middle) :
    middle.Addressed ∧ thunk < middle.heap.size := by
  cases demand with
  | lookup focus bound => exact ⟨addressed, addressed.locals _ (List.mem_of_getElem? bound)⟩
  | constant focus found lazy known => exact ⟨addressed, addressed.constants _ _ known⟩
  | @fresh index tag definition backtrace focus found lazy unknown new =>
    have grown := addressed.push (Closure.of definition.term [] backtrace) (by simp [Closure.of])
    have inside : thunk < (c.heap.push (Closure.of definition.term [] backtrace)).size := by
      rw [new, Array.size_push]
      omega
    refine ⟨⟨grown.locals, grown.frames, ?_, grown.closures⟩, inside⟩
    intro place known entry
    rcases getElem?_set!_eq_some entry with ⟨-, rfl⟩ | ⟨-, entry⟩
    · exact inside
    · exact grown.constants place known entry
  | next focus top strict =>
    obtain ⟨held, rest⟩ := addressed.top top
    refine ⟨addressed.reframe ?_, held thunk (by simp [Frame.thunks])⟩
    rintro frame (_ | ⟨_, member⟩)
    · exact fun other member => held other (List.mem_cons_of_mem _ member)
    · exact rest frame member
  | @call operation tag pending backtrace below streams focus top enough quiet =>
    obtain ⟨held, rest⟩ := addressed.waits top
    refine ⟨⟨addressed.locals, ?_, addressed.constants, addressed.closures⟩, held thunk (by simp)⟩
    rintro frame (_ | ⟨_, member⟩)
    · exact fun other member => held other (List.mem_cons_of_mem _ member)
    · exact rest frame member

theorem enter (addressed : c.Addressed) (inside : thunk < c.heap.size) (entry : c.Enters thunk after) :
    after.Addressed := by
  cases entry with
  | done evaluated => exact addressed.refocus (addressed.closures thunk) _
  | pending waiting =>
    have running := addressed.modify thunk (fun closure => { closure with state := .running })
      (addressed.closures thunk)
    have size : (c.heap.modify thunk fun closure => { closure with state := .running }).size = c.heap.size :=
      Array.size_modify
    refine ⟨?_, ?_, running.constants, running.closures⟩
    · intro other member
      rw [size]
      exact addressed.closures thunk other member
    · rintro frame (_ | ⟨_, member⟩)
      · intro other held
        rw [size, List.mem_singleton.mp held]
        exact inside
      · exact running.frames frame member

theorem move (addressed : c.Addressed) (move : c.Moves c') : c'.Addressed := by
  cases move with
  | enter demand entry =>
    obtain ⟨middle, inside⟩ := addressed.demand demand
    exact middle.enter inside entry
  | share focus bound =>
    refine ⟨addressed.locals, ?_, addressed.constants, addressed.closures⟩
    rintro frame (_ | ⟨_, member⟩)
    · intro other held
      rw [List.mem_singleton.mp held]
      exact addressed.locals _ (List.mem_of_getElem? bound)
    · exact addressed.frames frame member
  | @delay left right backtrace focus complex =>
    have grown := addressed.push (Closure.of right (right.captured c.locals) backtrace)
      (addressed.captured right)
    refine ⟨grown.locals, ?_, grown.constants, grown.closures⟩
    rintro frame (_ | ⟨_, member⟩)
    · intro other held
      rw [List.mem_singleton.mp held]
      simp [Config.suspend]
    · exact grown.frames frame member
  | apply focus top =>
    obtain ⟨held, rest⟩ := addressed.top top
    refine ⟨?_, rest, addressed.constants, addressed.closures⟩
    rintro other (_ | ⟨_, member⟩)
    · exact held _ (by simp [Frame.thunks])
    · exact addressed.locals other member
  | update value top =>
    refine (addressed.updateThunk _).reframe ?_
    simpa [Config.updateThunk] using (addressed.top top).2
  | compute focus top => exact (addressed.reframe (addressed.top top).2).refocus (by simp) _
  | talk focus top =>
    exact ⟨by simp, (addressed.top top).2, addressed.constants, addressed.closures⟩
  | unfold focus found value => exact addressed.refocus (by simp) _
  | @iterate value thunk backtrace below focus positive top =>
    have grown := addressed.push (Closure.of (.int (value - 1)) [] backtrace) (by simp [Closure.of])
    refine ⟨by simp, ?_, grown.constants, grown.closures⟩
    rintro frame (_ | ⟨_, member⟩)
    · intro other held
      rw [List.mem_singleton.mp held]
      simp
    · exact grown.frames frame member
  | vanish focus exhausted top => exact addressed.refocus (by simp) _
  | @hold operation tag arguments thunk below focus top short =>
    obtain ⟨held, rest⟩ := addressed.waits top
    have inside : ∀ frame ∈ below, ∀ thunk ∈ frame.thunks, thunk < c.heap.size :=
      fun frame member => rest frame (List.mem_cons_of_mem _ member)
    refine updateThunk ((addressed.reframe inside).refocus ?_ _) thunk
    intro other member
    exact held other (List.mem_reverse.mp member)

theorem fail (addressed : c.Addressed) {cause : FaultCause} (failure : c.Fails cause c') :
    c'.Addressed := by
  cases failure with
  | loop demand running => exact (addressed.demand demand).1
  | abort value top | talk focus top =>
    exact ⟨addressed.locals, (addressed.top top).2, addressed.constants, addressed.closures⟩
  | mismatch value function top | compute focus top | wrongCount focus top =>
    exact addressed.reframe (addressed.top top).2
  | _ => exact addressed

/-- Between two runs the thunks and the constants are kept. -/
theorem reset (addressed : c.Addressed) (streams : Streams) (entry : Term) :
    ({ c with streams, frames := [], term := entry, locals := [] } : Config).Addressed :=
  ⟨nofun, nofun, addressed.constants, addressed.closures⟩

/-- On a new machine there is nothing to refer to. -/
theorem start (globals : Array Global) (streams : Streams) (interrupt : Interrupt) (options : Options)
    (entry : Term) : ((Machine.start globals streams interrupt options).load entry).config.Addressed := by
  refine ⟨nofun, nofun, ?_, ?_⟩
  · intro index thunk known
    exact (Machine.start_constants _ _ _ _ _ _ _ known).elim
  · intro thunk kept member
    rw [Machine.start_closureAt] at member
    cases member

end Config.Addressed

end MixfixLambda
