import MixfixLambda.Proofs.Machine.Addresses

/-!
# Single evaluation

A thunk is evaluated at most once. The thunks that wait for a value on the spine are distinct and are the
running ones, a thunk only goes from pending to running and from running to done, and a value that has
taken the place of a thunk stays there. Every evaluation that has begun is paid for by a thunk that was
made, so that updates never outnumber thunks.
-/
namespace MixfixLambda

/-- The thunk that a frame replaces by the value. -/
def Frame.updated? : Frame → Option Nat
  | .update thunk => some thunk
  | _ => none

/-- The thunks that wait for a value, innermost first. -/
def updating (frames : List Frame) : List Nat :=
  frames.filterMap Frame.updated?

@[simp]
theorem updating_nil : updating [] = [] :=
  rfl

@[simp]
theorem updating_arg (thunk : Nat) (frames : List Frame) :
    updating (.arg thunk :: frames) = updating frames :=
  rfl

@[simp]
theorem updating_update (thunk : Nat) (frames : List Frame) :
    updating (.update thunk :: frames) = thunk :: updating frames :=
  rfl

@[simp]
theorem updating_force (operation : Builtin) (tag : Tag) (values : List Int) (pending : List Nat)
    (backtrace : Backtrace) (frames : List Frame) :
    updating (.force operation tag values pending backtrace :: frames) = updating frames :=
  rfl

theorem mem_updating {thunk : Nat} {frames : List Frame} :
    thunk ∈ updating frames ↔ .update thunk ∈ frames := by
  induction frames with
  | nil => simp
  | cons frame frames ih => cases frame <;> simp [ih]

theorem Config.Waits.updating_eq {frames below : List Frame} {arguments : List Nat}
    (split : Waits frames arguments below) : updating frames = updating below := by
  subst split
  induction arguments with
  | nil => rfl
  | cons first rest ih => exact ih

/-- The steps of a thunk's life. -/
inductive ThunkState.Advances : ThunkState → ThunkState → Prop
  | stay (state : ThunkState) : Advances state state
  | begin : Advances .pending .running
  | finish : Advances .running .done

theorem Closure.of_state_ne_running (term : Term) (locals : Env) (backtrace : Backtrace) :
    (Closure.of term locals backtrace).state ≠ .running := by
  unfold Closure.of
  split <;> nofun

namespace Heap

/-- How many thunks have not been needed yet. -/
def pending (h : Heap) : Nat :=
  Array.countP (fun closure => closure.state == .pending) h

theorem pending_push (h : Heap) (c : Closure) :
    pending (h.push c) = pending h + if c.state = .pending then 1 else 0 := by
  simp [pending, Array.countP_push]

theorem modify_eq_set {h : Heap} {thunk : Nat} (inside : thunk < h.size) (f : Closure → Closure) :
    h.modify thunk f = h.set thunk (f (closureAt h thunk)) := by
  refine Array.ext (by simp) fun place _ _ => ?_
  rw [Array.getElem_modify, Array.getElem_set]
  split
  · next same =>
    subst same
    simp [closureAt, inside]
  · rfl

/-- A thunk that is no longer pending was one of those that were counted. -/
theorem pending_modify {h : Heap} {thunk : Nat} {f : Closure → Closure} (inside : thunk < h.size)
    (begun : (f (closureAt h thunk)).state ≠ .pending) :
    pending (h.modify thunk f) + (if (closureAt h thunk).state = .pending then 1 else 0) = pending h := by
  have here : closureAt h thunk = h[thunk] := by simp [closureAt, inside]
  rw [modify_eq_set inside, pending, Array.countP_set inside, ← here]
  simp only [beq_iff_eq, if_neg begun, Nat.add_zero]
  split
  · next waiting =>
    have counted : 0 < pending h := Array.countP_pos_iff.mpr
      ⟨h[thunk], Array.getElem_mem inside, by rw [← here, waiting]; rfl⟩
    rw [pending] at *
    omega
  · rfl

/-- What a step may do to the closures of the thunks. -/
structure Evolves (h h' : Heap) : Prop where
  grows : h.size ≤ h'.size
  advances : ∀ thunk < h.size, (closureAt h thunk).state.Advances (closureAt h' thunk).state
  settled : ∀ thunk < h.size, (closureAt h thunk).state = .done → closureAt h' thunk = closureAt h thunk
  created : ∀ thunk, h.size ≤ thunk → thunk < h'.size →
    ((closureAt h' thunk).state = .done ↔ (closureAt h' thunk).term.isValue = true)

namespace Evolves

variable {h h' : Heap}

protected theorem refl (h : Heap) : h.Evolves h where
  grows := Nat.le_refl _
  advances _ _ := .stay _
  settled _ _ _ := rfl
  created thunk outside inside := absurd inside (by omega)

theorem push (h : Heap) (term : Term) (locals : Env) (backtrace : Backtrace) :
    h.Evolves (h.push (Closure.of term locals backtrace)) where
  grows := by simp
  advances thunk inside := by
    rw [closureAt_push_lt inside]
    exact .stay _
  settled thunk inside _ := closureAt_push_lt inside _
  created thunk outside inside := by
    obtain rfl : thunk = h.size := by
      rw [Array.size_push] at inside
      omega
    rw [closureAt_push, if_pos rfl]
    cases value : term.isValue <;> simp [Closure.of, value]

/-- A thunk is marked as running, perhaps right after it has been made. -/
theorem enter (evolves : h.Evolves h') {thunk : Nat}
    (same : ∀ thunk < h.size, closureAt h' thunk = closureAt h thunk)
    (waiting : (closureAt h' thunk).state = .pending) :
    h.Evolves (h'.modify thunk fun closure => { closure with state := .running }) where
  grows := by
    rw [Array.size_modify]
    exact evolves.grows
  advances other inside := by
    rw [closureAt_modify]
    split
    · next entered =>
      rw [← same other inside, ← entered.1, waiting]
      exact .begin
    · rw [same other inside]
      exact .stay _
  settled other inside value := by
    rw [closureAt_modify, if_neg, same other inside]
    rintro ⟨rfl, -⟩
    rw [← same thunk inside, waiting] at value
    cases value
  created other outside inside := by
    rw [Array.size_modify] at inside
    have created := evolves.created other outside inside
    rw [closureAt_modify]
    split
    · next entered =>
      rw [← entered.1, waiting] at created
      rw [← entered.1]
      simpa using created
    · exact created

/-- A running thunk gets its value. -/
theorem update {thunk : Nat} (running : (closureAt h thunk).state = .running) (term : Term)
    (locals : Env) : h.Evolves (h.modify thunk (·.update term locals)) where
  grows := Nat.le_of_eq Array.size_modify.symm
  advances other inside := by
    rw [closureAt_modify]
    split
    · next updated =>
      rw [← updated.1, running]
      exact .finish
    · exact .stay _
  settled other inside value := by
    rw [closureAt_modify, if_neg]
    rintro ⟨rfl, -⟩
    rw [running] at value
    cases value
  created other outside inside := by
    rw [Array.size_modify] at inside
    omega

end Evolves

end Heap

namespace Config

/-- Finding the thunk to go on with changes no thunk that there was. -/
theorem Demands.evolves {c middle : Config} {thunk : Nat} (demand : c.Demands thunk middle) :
    c.heap.Evolves middle.heap ∧
      ∀ thunk < c.heap.size, middle.heap.closureAt thunk = c.heap.closureAt thunk := by
  cases demand with
  | fresh => exact ⟨.push .., fun _ inside => Heap.closureAt_push_lt inside _⟩
  | _ => exact ⟨.refl _, fun _ _ => rfl⟩

theorem Demands.updating_eq {c middle : Config} {thunk : Nat} (demand : c.Demands thunk middle) :
    updating middle.frames = updating c.frames := by
  cases demand with
  | next focus top strict => simp [top]
  | call focus top enough quiet => simp [top.updating_eq]
  | _ => rfl

/-- The thunks that wait for a value are distinct and are the running ones, and there are enough thunks
for the updates that have been made, that are under way, and that may follow. -/
structure Single (c : Config) : Prop where
  distinct : (updating c.frames).Nodup
  running : ∀ thunk, thunk ∈ updating c.frames ↔ (c.heap.closureAt thunk).state = .running
  counted : c.updates + (updating c.frames).length + c.heap.pending ≤ c.thunks

namespace Single

variable {c c' middle after : Config} {thunk : Nat}

/-- Only the heap, the updates on the spine and the counters matter. -/
theorem of_eq (single : c.Single) (heap : c'.heap = c.heap)
    (frames : updating c'.frames = updating c.frames) (thunks : c'.thunks = c.thunks)
    (updates : c'.updates = c.updates) : c'.Single := by
  refine ⟨?_, ?_, ?_⟩
  · rw [frames]
    exact single.distinct
  · rw [frames, heap]
    exact single.running
  · rw [frames, heap, thunks, updates]
    exact single.counted

/-- A new thunk is paid for if it may be evaluated. -/
theorem push (single : c.Single) (closure : Closure) (thunks : Nat)
    (idle : closure.state ≠ .running)
    (paid : c.thunks + (if closure.state = .pending then 1 else 0) ≤ thunks) :
    ({ c with heap := c.heap.push closure, thunks } : Config).Single := by
  refine ⟨single.distinct, ?_, ?_⟩
  · intro thunk
    rw [Heap.closureAt_push]
    split
    · next new =>
      rw [single.running, new, Heap.closureAt_of_size_le (Nat.le_refl _)]
      exact ⟨nofun, fun running => absurd running idle⟩
    · exact single.running thunk
  · have counted := single.counted
    simp only [Heap.pending_push]
    omega

theorem demand (single : c.Single) (demand : c.Demands thunk middle) : middle.Single := by
  have frames := demand.updating_eq
  cases demand with
  | @fresh index tag definition backtrace focus found lazy unknown new =>
    have grown := single.push (Closure.of definition.term [] backtrace) (c.thunks + 1)
      (Closure.of_state_ne_running _ _ _) (by split <;> omega)
    exact grown.of_eq rfl rfl rfl rfl
  | _ => exact single.of_eq rfl frames rfl rfl

theorem enter (single : c.Single) (inside : thunk < c.heap.size)
    (entry : c.Enters thunk after) : after.Single := by
  cases entry with
  | done evaluated => exact single.of_eq rfl rfl rfl rfl
  | pending waiting =>
    have fresh : thunk ∉ updating c.frames := by
      rw [single.running, waiting]
      nofun
    refine ⟨List.nodup_cons.mpr ⟨fresh, single.distinct⟩, ?_, ?_⟩
    · intro other
      rw [updating_update, List.mem_cons, single.running, Heap.closureAt_modify]
      split
      · next entered => simp [entered.1]
      · next old =>
        refine or_iff_right ?_
        rintro rfl
        exact old ⟨rfl, inside⟩
    · have counted := single.counted
      have less := Heap.pending_modify (f := fun closure => { closure with state := .running }) inside nofun
      rw [if_pos waiting] at less
      simp only [updating_update, List.length_cons]
      omega

/-- The value of the innermost thunk that waits for one takes its place. -/
theorem update (single : c.Single) (term : Term) (locals : Env) (below : List Frame)
    (inside : thunk < c.heap.size) (waits : updating c.frames = thunk :: updating below) :
    ({ c with term, locals, frames := below : Config}.updateThunk thunk).Single := by
  have distinct := single.distinct
  rw [waits] at distinct
  obtain ⟨absent, rest⟩ := List.nodup_cons.mp distinct
  have running : (c.heap.closureAt thunk).state = .running := by
    rw [← single.running, waits]
    exact List.mem_cons_self
  refine ⟨rest, ?_, ?_⟩
  · intro other
    change _ ↔ (Heap.closureAt (c.heap.modify thunk _) other).state = ThunkState.running
    rw [Heap.closureAt_modify]
    split
    · next updated =>
      rw [← updated.1]
      exact ⟨fun member => absurd member absent, nofun⟩
    · next old =>
      rw [← single.running, waits, List.mem_cons]
      refine (or_iff_right ?_).symm
      rintro rfl
      exact old ⟨rfl, inside⟩
  · have counted := single.counted
    have same := Heap.pending_modify (f := (·.update term locals)) inside nofun
    rw [if_neg (by rw [running]; nofun)] at same
    rw [waits, List.length_cons] at counted
    simp only [updateThunk]
    omega

theorem move (single : c.Single) (addressed : c.Addressed) (move : c.Moves c') : c'.Single := by
  cases move with
  | enter demand entry => exact (single.demand demand).enter (addressed.demand demand).2 entry
  | @delay left right backtrace focus complex =>
    have grown := single.push (Closure.of right (right.captured c.locals) backtrace)
      (c.thunks + 1) (Closure.of_state_ne_running _ _ _) (by split <;> omega)
    exact grown.of_eq rfl rfl rfl rfl
  | @iterate value thunk backtrace below focus positive top =>
    have grown := single.push (Closure.of (.int (value - 1)) [] backtrace) c.thunks
      (Closure.of_state_ne_running _ _ _) (Nat.le_refl _)
    exact grown.of_eq rfl rfl rfl rfl
  | @update thunk below value top =>
    have inside := (addressed.top top).1 _ List.mem_cons_self
    exact single.update c.term c.locals below inside (by rw [top, updating_update])
  | @hold operation tag arguments thunk below focus top short =>
    have inside := (addressed.waits top).2 _ List.mem_cons_self _ List.mem_cons_self
    exact single.update _ _ below inside (by rw [top.updating_eq, updating_update])
  | apply focus top | compute focus top | talk focus top =>
    exact single.of_eq rfl (by rw [top]; rfl) rfl rfl
  | _ => exact single.of_eq rfl rfl rfl rfl

theorem fail (single : c.Single) {cause : FaultCause} (failure : c.Fails cause c') : c'.Single := by
  cases failure with
  | loop demand running => exact single.demand demand
  | abort value top | mismatch value function top | compute focus top | talk focus top
  | wrongCount focus top => exact single.of_eq rfl (by rw [top]; rfl) rfl rfl
  | _ => exact single

/-- The thunk that a step cannot go on with is waiting for its value. -/
theorem demanded (single : c.Single) (demand : c.Demands thunk middle)
    (running : (middle.heap.closureAt thunk).state = .running) : .update thunk ∈ c.frames := by
  rw [← mem_updating, ← demand.updating_eq, (single.demand demand).running]
  exact running

theorem start (globals : Array Global) (streams : Streams) (interrupt : Interrupt) (options : Options)
    (entry : Term) : ((Machine.start globals streams interrupt options).load entry).config.Single := by
  refine ⟨.nil, ?_, Nat.le_refl _⟩
  intro thunk
  rw [Machine.start_closureAt]
  exact ⟨nofun, nofun⟩

end Single

theorem Moves.evolves {c c' : Config} (move : c.Moves c') (single : c.Single) :
    c.heap.Evolves c'.heap := by
  cases move with
  | enter demand entry =>
    obtain ⟨evolves, same⟩ := demand.evolves
    cases entry with
    | done evaluated => exact evolves
    | pending waiting => exact evolves.enter same waiting
  | delay focus complex => exact .push ..
  | iterate focus positive top => exact .push ..
  | update value top =>
    refine .update ?_ _ _
    rw [← single.running, mem_updating, top]
    exact List.mem_cons_self
  | hold focus top short =>
    refine .update ?_ _ _
    rw [← single.running, top.updating_eq, mem_updating]
    exact List.mem_cons_self
  | _ => exact .refl _

theorem Next.evolves {c c' : Config} (next : c.Next c') (single : c.Single) :
    c.heap.Evolves c'.heap := by
  rcases next with rfl | move | ⟨cause, failure⟩
  · exact .refl _
  · exact move.evolves single
  · cases failure with
    | loop demand running => exact demand.evolves.1
    | _ => exact .refl _

end Config

namespace Machine

open Config

/-- Whatever a new machine works on, every configuration refers to thunks that exist, and evaluates none of
them twice. -/
theorem steps_single (globals : Array Global) (streams : Streams) (interrupt : Interrupt)
    (options : Options) (entry : Term) (fuel : Nat) :
    let m := (steps fuel ((start globals streams interrupt options).load entry)).2
    m.config.Addressed ∧ m.config.Single := by
  refine steps_keep (P := fun c => c.Addressed ∧ c.Single) ?_ ?_ fuel _ ⟨.start .., .start ..⟩
  · rintro c c' ⟨addressed, single⟩ move
    exact ⟨addressed.move move, single.move addressed move⟩
  · rintro c cause c' ⟨addressed, single⟩ failure
    exact ⟨addressed.fail failure, single.fail failure⟩

/-- A value that has taken the place of a thunk stays there. -/
theorem steps_settled (globals : Array Global) (streams : Streams) (interrupt : Interrupt)
    (options : Options) (entry : Term) (fuel later thunk : Nat) :
    let run fuel := (steps fuel ((start globals streams interrupt options).load entry)).2
    ((run fuel).heap.closureAt thunk).state = .done →
      (run (fuel + later)).heap.closureAt thunk = (run fuel).heap.closureAt thunk := by
  intro run value
  induction later with
  | zero => rfl
  | succ later ih =>
    have single := (steps_single globals streams interrupt options entry (fuel + later)).2
    have evolves := (steps_next (fuel + later) _).evolves single
    have inside : thunk < (run (fuel + later)).heap.size := by
      refine Nat.lt_of_not_le fun beyond => ?_
      rw [← ih, Heap.closureAt_of_size_le beyond] at value
      cases value
    exact (evolves.settled thunk inside (ih ▸ value)).trans ih

/-- A thunk is evaluated at most once. -/
theorem steps_evaluate_once (globals : Array Global) (streams : Streams) (interrupt : Interrupt)
    (options : Options) (entry : Term) (fuel : Nat) :
    let run fuel := (steps fuel ((start globals streams interrupt options).load entry)).2
    let m := run fuel
    (updating m.spine.frames).Nodup ∧
      (∀ thunk, thunk ∈ updating m.spine.frames ↔ (m.heap.closureAt thunk).state = .running) ∧
      m.heap.Evolves (run (fuel + 1)).heap ∧
      (∀ thunk later, (m.heap.closureAt thunk).state = .done →
        (run (fuel + later)).heap.closureAt thunk = m.heap.closureAt thunk) ∧
      (∀ fault after, m.step = .faulted fault after → fault.cause = .loop →
        ∃ thunk, m.config.Demands thunk after.config ∧ .update thunk ∈ m.spine.frames) ∧
      m.stats.updates + (updating m.spine.frames).length ≤ m.stats.thunks := by
  intro run m
  obtain ⟨addressed, single⟩ := steps_single globals streams interrupt options entry fuel
  refine ⟨single.distinct, single.running, (steps_next fuel _).evolves single, ?_, ?_, ?_⟩
  · intro thunk later
    exact steps_settled globals streams interrupt options entry fuel later thunk
  · intro fault after step cause
    have obeys := m.step_obeys
    rw [step] at obeys
    change m.config.Fails fault.cause after.config at obeys
    rw [cause] at obeys
    obtain ⟨thunk, demand, running⟩ := obeys.demand_of_loop
    exact ⟨thunk, demand, single.demanded demand running⟩
  · exact Nat.le_trans (Nat.le_add_right ..) single.counted

end Machine

end MixfixLambda
