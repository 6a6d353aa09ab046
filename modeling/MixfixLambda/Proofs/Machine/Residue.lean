import MixfixLambda.Proofs.Machine.Scoping
import MixfixLambda.Proofs.Machine.Sharing

/-!
# What a run leaves behind

Thunks and constants outlive a run, but the spine does not. A thunk that still waits for its value when a
run ends stays marked as running, and a later run that needs it reports a loop. Only a fault can do that: a
run that comes to a value ends with a bare spine. As long as no run has been cut off inside a thunk, a loop
is reported only for a thunk that the same run is evaluating.
-/
namespace MixfixLambda

namespace Config

/-- The next run starts with a bare spine; once nothing waits any more, that loses no update. -/
theorem Single.reset {c : Config} (single : c.Single) (complete : updating c.frames = [])
    (streams : Streams) (entry : Term) :
    ({ c with streams, frames := [], term := entry, locals := [] } : Config).Single :=
  single.of_eq rfl complete.symm rfl rfl

end Config

namespace Machine

/-- The machine when the evaluation of a term has ended, before its spine is dropped. -/
def ended (m : Machine) (fuel : Nat) (entry : Term) : Machine :=
  (steps fuel (m.load entry)).2

/-- A machine on which terms have been run, none of which ended while a thunk waited for its value. -/
inductive Undisturbed : Machine → Prop
  | start (globals : Array Global) (streams : Streams) (interrupt : Interrupt) (options : Options) :
      Undisturbed (start globals streams interrupt options)
  | run {m : Machine} (earlier : Undisturbed m) (fuel : Nat) (entry : Term)
      (complete : ∀ thunk, .update thunk ∉ (m.ended fuel entry).spine.frames) :
      Undisturbed (m.run fuel entry).2

variable {m : Machine}

/-- A run that starts so that thunks are evaluated at most once ends so, whatever ends it. -/
theorem ended_single {entry : Term} (ready : (m.load entry).config.Addressed ∧ (m.load entry).config.Single)
    (fuel : Nat) : (m.ended fuel entry).config.Addressed ∧ (m.ended fuel entry).config.Single := by
  refine steps_keep (P := fun c => c.Addressed ∧ c.Single) ?_ ?_ fuel _ ready
  · rintro c c' ⟨addressed, single⟩ move
    exact ⟨addressed.move move, single.move addressed move⟩
  · rintro c cause c' ⟨addressed, single⟩ failure
    exact ⟨addressed.fail failure, single.fail failure⟩

/-- Whatever an undisturbed machine is given next, no thunk is running before it starts. -/
theorem Undisturbed.ready (undisturbed : m.Undisturbed) (entry : Term) :
    (m.load entry).config.Addressed ∧ (m.load entry).config.Single := by
  induction undisturbed generalizing entry with
  | start => exact ⟨.start .., .start ..⟩
  | run earlier fuel last complete ih =>
    obtain ⟨addressed, single⟩ := ended_single (ih last) fuel
    rw [Machine.run, conclude_load_config]
    refine ⟨addressed.reset _ _, single.reset ?_ _ _⟩
    exact List.eq_nil_iff_forall_not_mem.mpr fun thunk waits => complete thunk (mem_updating.mp waits)

/-- The flushes at the end of a run do not touch the heap. -/
theorem run_heap (m : Machine) (fuel : Nat) (entry : Term) :
    (m.run fuel entry).2.heap = (m.ended fuel entry).heap := by
  unfold Machine.run conclude
  dsimp only
  split <;> rfl

/-- A fault is that of the last step. -/
theorem steps_fault {fuel : Nat} {fault : Fault} (faulted : (steps fuel m).1 = .fault fault) :
    ∃ earlier, (steps earlier m).2.step = .faulted fault (steps fuel m).2 := by
  induction fuel generalizing m with
  | zero => cases faulted
  | succ fuel ih =>
    cases step : m.step with
    | running next =>
      simp only [steps, step] at faulted
      obtain ⟨earlier, last⟩ := ih faulted
      exact ⟨earlier + 1, by simpa only [steps, step] using last⟩
    | finished v after =>
      simp only [steps, step] at faulted
      cases faulted
    | faulted found after =>
      simp only [steps, step] at faulted
      exact ⟨0, by simp [steps, step, RunResult.fault.inj faulted]⟩

/-- On an undisturbed machine a run leaves just those thunks running that wait for a value when it ends.
One that comes to a value leaves none, and one that reports a loop was evaluating that very thunk. -/
theorem run_leaves_running (undisturbed : m.Undisturbed) (fuel : Nat) (entry : Term) :
    let last := m.ended fuel entry
    (∀ thunk, ((m.run fuel entry).2.heap.closureAt thunk).state = .running ↔
        .update thunk ∈ last.spine.frames) ∧
      (∀ v, (steps fuel (m.load entry)).1 = .value v → ∀ thunk, .update thunk ∉ last.spine.frames) ∧
      (∀ fault, (m.run fuel entry).1 = .fault fault → fault.cause = .loop →
        ∃ earlier thunk, (m.ended earlier entry).config.Demands thunk last.config ∧
          .update thunk ∈ (m.ended earlier entry).spine.frames) := by
  intro last
  have ready := undisturbed.ready entry
  refine ⟨?_, ?_, ?_⟩
  · intro thunk
    rw [run_heap, ← mem_updating]
    exact ((ended_single ready fuel).2.running thunk).symm
  · intro v value thunk waits
    have ends := steps_ends (P := fun _ => True) (fun _ _ _ _ => trivial) fuel (m.load entry) trivial
    rw [value] at ends
    rw [show last.spine.frames = [] from ends.2.bare] at waits
    exact List.not_mem_nil waits
  · intro fault faulted cause
    rcases conclude_fault faulted with result | ⟨error, streamed⟩
    · obtain ⟨earlier, step⟩ := steps_fault result
      have obeys := (m.ended earlier entry).step_obeys
      rw [ended, step] at obeys
      change Config.Fails _ fault.cause last.config at obeys
      rw [cause] at obeys
      obtain ⟨thunk, demand, running⟩ := obeys.demand_of_loop
      exact ⟨earlier, thunk, demand, (ended_single ready earlier).2.demanded demand running⟩
    · rw [streamed] at cause
      cases cause

/-- A constant whose evaluation fails, and one that has a value. -/
def quotientAndSum : Array Global :=
  #[⟨.synthetic "q", .applyAll (.builtin .div (.synthetic "/")) [.int 1, .int 0]⟩,
    ⟨.synthetic "s", .applyAll (.builtin .add (.synthetic "+")) [.int 1, .int 2]⟩]

theorem run_leaves_running_quotient :
    let first := start quotientAndSum (.ofReader []) .never ⟨0, false, false⟩
    let second := (first.run 10 (.global 1 (.synthetic "s"))).2
    second.Undisturbed ∧
      (∀ thunk, ((second.run 10 (.global 0 (.synthetic "q"))).2.heap.closureAt thunk).state = .running ↔
        .update thunk ∈ (second.ended 10 (.global 0 (.synthetic "q"))).spine.frames) ∧
      .update 3 ∈ (second.ended 10 (.global 0 (.synthetic "q"))).spine.frames := by
  intro first second
  have undisturbed : second.Undisturbed := by
    refine .run (.start ..) _ _ fun thunk waits => ?_
    have bare : (first.ended 10 (.global 1 (.synthetic "s"))).spine.frames = [] := by decide
    rw [bare] at waits
    exact List.not_mem_nil waits
  exact ⟨undisturbed, (run_leaves_running undisturbed 10 _).1, by decide⟩

/-- A fault inside a constant leaves its thunk running, and the next run, which would meet the same fault,
reports a loop. -/
theorem running_after_fault :
    let first := start quotientAndSum (.ofReader []) .never ⟨0, false, false⟩
    let entry := Term.global 0 (.synthetic "q")
    let second := (first.run 10 entry).2
    (∃ fault, (first.run 10 entry).1 = .fault fault ∧ fault.cause = .divideByZero) ∧
      second.constants[0]? = some (some 0) ∧ (second.heap.closureAt 0).state = .running ∧
      ∃ fault, (second.run 10 entry).1 = .fault fault ∧ fault.cause = .loop :=
  ⟨⟨_, rfl, rfl⟩, rfl, rfl, ⟨_, rfl, rfl⟩⟩

end Machine

end MixfixLambda
