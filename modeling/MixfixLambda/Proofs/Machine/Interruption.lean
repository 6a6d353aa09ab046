import Mathlib.Order.Bounds.Basic
import MixfixLambda.Proofs.Machine.Change
import MixfixLambda.Proofs.Machine.Evaluation
import MixfixLambda.Proofs.Machine.Ordering
import MixfixLambda.Proofs.Machine.Scoping

/-!
# Interruption

Every step counts itself, and the steps whose count is a multiple of `interruptPoll` look at the interrupt
flag. A reduction neither reads nor changes the count or the flag, so a run under a raised flag is the same
as without one up to the next such step, which is its last. A call of a stream that is only interrupted is
made again within its step, as often as the stream says, and leaves the flag alone.
-/
namespace MixfixLambda

/-- Only a flag interrupts. -/
theorem Config.Fails.raised {c c' : Config} {cause : FaultCause} (failure : c.Fails cause c')
    (interrupted : cause = .interrupted) : c.interrupt ≠ .never := by
  cases failure with
  | interrupted raised => exact raised
  | compute focus top both two answer =>
    rcases Builtin.binary_error two answer with found | found | found <;> cases interrupted.symm.trans found
  | talk focus top talks refused =>
    rcases refused with found | ⟨error, found⟩ <;> cases interrupted.symm.trans found
  | _ => cases interrupted

namespace Machine

variable {m m' : Machine}

/-- The machine with nobody to interrupt it. -/
def unattended (m : Machine) : Machine :=
  { m with interrupt := .never }

theorem reduce_unattended (m : Machine) : m.unattended.reduce = m.reduce.on unattended :=
  reduce_changed_alike (c := ⟨id, fun _ => .never, id, id⟩) fun _ _ _ _ => rfl

/-- Without a look at the flag nothing fails as interrupted. -/
theorem reduce_cause {fault : Fault} {after : Machine} (failed : m.reduce = .faulted fault after) :
    fault.cause ≠ .interrupted := by
  have obeys := m.unattended.reduce_obeys
  rw [reduce_unattended, failed] at obeys
  exact fun interrupted => Config.Fails.raised obeys interrupted rfl

theorem tick_isRaised (m : Machine) : m.tick.isRaised = m.isRaised := by
  unfold tick
  dsimp only
  split <;> rfl

theorem tick_unattended (m : Machine) : m.unattended.tick = m.tick.unattended := by
  unfold tick unattended
  dsimp only
  split <;> rfl

/-- What has been written stays written, so a flag that has been raised stays up. -/
theorem isRaised_of_logs {log : List Outcome} (flag : m'.interrupt = m.interrupt)
    (logs : m.streams.Logs log m'.streams) (raised : m.isRaised = true) : m'.isRaised = true := by
  have grows : m.streams.output.stored.size ≤ m'.streams.output.stored.size := by
    have longer := congrArg List.length (logs.stored .output)
    rw [List.length_append, Array.length_toList, Array.length_toList] at longer
    change m'.streams.output.stored.size = m.streams.output.stored.size + _ at longer
    omega
  unfold isRaised at raised ⊢
  rw [flag]
  cases flagged : m.interrupt with
  | never => rw [flagged] at raised; exact raised
  | fromStart => rfl
  | afterBytes count =>
    rw [flagged] at raised
    exact decide_eq_true ((of_decide_eq_true raised).trans grows)

theorem step_isRaised (raised : m.isRaised = true) : m.step.machine.isRaised = true := by
  have logs := m.step_performs.logs
  rw [tick_streams] at logs
  exact isRaised_of_logs m.step_keeps.2.1 logs raised

/-- Only a raised flag interrupts a step. -/
theorem step_interrupted {fault : Fault} {after : Machine} (failed : m.step = .faulted fault after)
    (interrupted : fault.cause = .interrupted) : after.isRaised = true ∧ after.interrupt = m.interrupt := by
  unfold step at failed
  dsimp only at failed
  split at failed
  · next looks =>
    obtain ⟨-, rfl⟩ := StepResult.faulted.inj failed
    rw [isInterrupted, Bool.and_eq_true] at looks
    exact ⟨looks.2, m.tick_keeps.2.1⟩
  · exact absurd interrupted (reduce_cause failed)

/-- At a poll a raised flag ends the run. -/
theorem step_of_poll (raised : m.isRaised = true) (poll : interruptPoll ∣ m.stats.steps + 1) :
    m.step = m.tick.fail .interrupted none := by
  have looks : m.tick.isInterrupted = true := by
    rw [isInterrupted, m.tick_keeps.1, tick_isRaised, raised, Nat.mod_eq_zero_of_dvd poll]
    rfl
  unfold step
  dsimp only
  rw [looks]
  rfl

/-- Between two polls a step is what it is without a flag. -/
theorem step_unattended (between : ¬ interruptPoll ∣ m.stats.steps + 1) :
    m.unattended.step = m.step.on unattended := by
  have awake : m.tick.isInterrupted = false := by
    rw [isInterrupted, m.tick_keeps.1, decide_eq_false (fun zero => between (Nat.dvd_of_mod_eq_zero zero))]
    rfl
  rw [step_of_never rfl, tick_unattended, reduce_unattended]
  unfold step
  dsimp only
  rw [awake]
  rfl

/-- The first count behind the given one at which the flag is looked at. -/
def nextPoll (count : Nat) : Nat :=
  (count / interruptPoll + 1) * interruptPoll

theorem nextPoll_isLeast (count : Nat) :
    IsLeast {later | count < later ∧ interruptPoll ∣ later} (nextPoll count) := by
  refine ⟨⟨?_, Nat.dvd_mul_left _ _⟩, ?_⟩
  · rw [nextPoll, interruptPoll]
    omega
  · rintro later ⟨behind, turns, rfl⟩
    rw [nextPoll, Nat.mul_comm]
    exact Nat.mul_le_mul_left _ (Nat.div_lt_of_lt_mul behind)

theorem nextPoll_close (count : Nat) : nextPoll count ≤ count + interruptPoll := by
  rw [nextPoll, Nat.succ_mul]
  exact Nat.add_le_add_right (Nat.div_mul_le_self _ _) _

theorem steps_of_step {fuel : Nat} (some : 0 < fuel) : steps fuel m = match m.step with
    | .running next => steps (fuel - 1) next
    | .finished value last => (.value value, last)
    | .faulted fault last => (.fault fault, last) := by
  obtain ⟨rest, rfl⟩ : ∃ rest, fuel = rest + 1 := ⟨fuel - 1, by omega⟩
  rfl

/-- How a run under a raised flag has ended: interrupted at the limit, or before it, as it would have ended
without the flag. -/
def EndsBy (m : Machine) (limit : Nat) (result : RunResult) (last : Machine) : Prop :=
  (∃ fault, result = .fault fault ∧ fault.cause = .interrupted ∧ last.stats.steps = limit) ∨
    (result ≠ .outOfFuel ∧ last.stats.steps < limit ∧
      ∀ fuel, limit - m.stats.steps ≤ fuel → steps fuel m.unattended = (result, last.unattended))

/-- A run that ends with its first step, and does so without the flag too. -/
theorem endsBy_of_last (result : RunResult) (last : Machine) {limit : Nat} (ended : result ≠ .outOfFuel)
    (stops : ∀ fuel, 0 < fuel → steps fuel m = (result, last))
    (itself : ∀ fuel, 0 < fuel → steps fuel m.unattended = (result, last.unattended))
    (ahead : m.stats.steps < limit) (before : last.stats.steps < limit) :
    ∃ result last, (∀ fuel, limit - m.stats.steps ≤ fuel → steps fuel m = (result, last)) ∧
      m.EndsBy limit result last :=
  ⟨result, last, fun fuel enough => stops fuel (by omega),
    .inr ⟨ended, before, fun fuel enough => itself fuel (by omega)⟩⟩

/-- Under a raised flag a run lasts until the next poll at most. -/
theorem steps_endsBy (raised : m.isRaised = true) {limit : Nat} (poll : interruptPoll ∣ limit)
    (ahead : m.stats.steps < limit) (close : limit ≤ m.stats.steps + interruptPoll) :
    ∃ result last, (∀ fuel, limit - m.stats.steps ≤ fuel → steps fuel m = (result, last)) ∧
      m.EndsBy limit result last := by
  -- On the steps that are left: the last one is interrupted, and each other one leaves one less.
  induction left : limit - m.stats.steps - 1 generalizing m with
  | zero =>
    have here : m.stats.steps + 1 = limit := by omega
    have last := step_of_poll raised (by rwa [here])
    refine ⟨_, m.tick, fun fuel enough => ?_,
      .inl ⟨m.tick.faultAt .interrupted none, rfl, rfl, m.tick_keeps.1.trans here⟩⟩
    rw [steps_of_step (by omega), last]
    rfl
  | succ rest ih =>
    have between : ¬ interruptPoll ∣ m.stats.steps + 1 := by
      intro here
      rw [show limit = m.stats.steps + 1 + (rest + 1) by omega, Nat.dvd_add_right here] at poll
      have large := Nat.le_of_dvd (Nat.succ_pos rest) poll
      omega
    have same := step_unattended between
    have count := m.step_keeps.1
    have up := step_isRaised raised
    cases step : m.step with
    | running next =>
      rw [step] at same count up
      change next.stats.steps = _ at count
      change next.isRaised = true at up
      obtain ⟨result, last, reaches, ends⟩ := ih up (by omega) (by omega) (by omega)
      refine ⟨result, last, fun fuel enough => ?_, ?_⟩
      · rw [steps_of_step (by omega), step]
        exact reaches _ (by omega)
      · rcases ends with interrupted | ⟨ended, before, itself⟩
        · exact .inl interrupted
        · refine .inr ⟨ended, before, fun fuel enough => ?_⟩
          rw [steps_of_step (by omega), same]
          exact itself _ (by omega)
    | finished value last =>
      rw [step] at same count
      change last.stats.steps = _ at count
      refine endsBy_of_last (.value value) last nofun (fun fuel some => ?_) (fun fuel some => ?_) ahead (by omega)
      · rw [steps_of_step some, step]
      · rw [steps_of_step some, same]
        rfl
    | faulted fault last =>
      rw [step] at same count
      change last.stats.steps = _ at count
      refine endsBy_of_last (.fault fault) last nofun (fun fuel some => ?_) (fun fuel some => ?_) ahead (by omega)
      · rw [steps_of_step some, step]
      · rw [steps_of_step some, same]
        rfl

theorem steps_interrupted {fuel : Nat} {fault : Fault} {last : Machine} (ended : steps fuel m = (.fault fault, last))
    (interrupted : fault.cause = .interrupted) : last.isRaised = true ∧ last.interrupt = m.interrupt := by
  induction fuel generalizing m with
  | zero => cases ended
  | succ fuel ih =>
    have flag := m.step_keeps.2.1
    rw [steps] at ended
    cases step : m.step with
    | running next =>
      rw [step] at ended flag
      obtain ⟨raised, same⟩ := ih ended
      exact ⟨raised, same.trans flag⟩
    | finished value after =>
      rw [step] at ended
      cases ended
    | faulted found after =>
      rw [step] at ended
      cases ended
      exact step_interrupted step interrupted

theorem conclude_machine (result : RunResult) (m : Machine) : (conclude result m).2 =
    { m with streams := (flushAll m.streams).2, spine := .empty, term := .int 0, locals := [] } := by
  unfold conclude onStreams
  dsimp only
  split <;> rfl

theorem conclude_ended {result : RunResult} (ended : result ≠ .outOfFuel) (m : Machine) :
    (conclude result m).1 ≠ .outOfFuel := by
  unfold conclude
  dsimp only
  split
  · exact nofun
  · exact ended

theorem conclude_unattended (result : RunResult) (m : Machine) : conclude result m.unattended =
    ((conclude result m).1, (conclude result m).2.unattended) := by
  unfold conclude onStreams unattended
  dsimp only
  split <;> rfl

/-- Under a flag that is up when it starts a run ends, at the next poll or before, and there with the fault that
says so; one that ends before the poll ends as without the flag. Nothing but a raised flag interrupts a run. -/
theorem run_interrupted (m : Machine) (t : Term) :
    let limit := nextPoll m.stats.steps
    IsLeast {later | m.stats.steps < later ∧ interruptPoll ∣ later} limit ∧
      (m.isRaised = true → ∃ result last,
        (∀ fuel, limit - m.stats.steps ≤ fuel → m.run fuel t = (result, last)) ∧ result ≠ .outOfFuel ∧
          ((∃ fault, result = .fault fault ∧ fault.cause = .interrupted ∧ last.stats.steps = limit) ∨
            (last.stats.steps < limit ∧
              ∀ fuel, limit - m.stats.steps ≤ fuel → m.unattended.run fuel t = (result, last.unattended)))) ∧
      (∀ fuel fault last, m.run fuel t = (.fault fault, last) → fault.cause = .interrupted →
        last.isRaised = true ∧ last.interrupt = m.interrupt) := by
  intro limit
  have least := nextPoll_isLeast m.stats.steps
  refine ⟨least, fun raised => ?_, fun fuel fault last ended interrupted => ?_⟩
  · obtain ⟨result, after, reaches, ends⟩ :=
      steps_endsBy (m := m.load t) raised least.1.2 least.1.1 (nextPoll_close m.stats.steps)
    have count : (conclude result after).2.stats.steps = after.stats.steps := by rw [conclude_machine]
    have runs : ∀ fuel, limit - m.stats.steps ≤ fuel → m.run fuel t = conclude result after := by
      intro fuel enough
      rw [run, reaches fuel enough]
    rcases ends with ⟨fault, rfl, cause, last⟩ | ⟨ended, before, itself⟩
    · exact ⟨.fault fault, _, runs, RunResult.noConfusion, .inl ⟨fault, rfl, cause, count.trans last⟩⟩
    · refine ⟨_, _, runs, conclude_ended ended after, .inr ⟨count.trans_lt before, fun fuel enough => ?_⟩⟩
      rw [run, show m.unattended.load t = (m.load t).unattended from rfl, itself fuel enough]
      exact conclude_unattended result after
  · cases stopped : steps fuel (m.load t) with
    | mk result after =>
      rw [run, stopped] at ended
      rcases conclude_fault (congrArg Prod.fst ended) with rfl | ⟨error, streamed⟩
      · obtain ⟨up, flag⟩ := steps_interrupted stopped interrupted
        obtain ⟨log, -, logs⟩ := flushAll_logs after.streams
        obtain rfl : (conclude (.fault fault) after).2 = last := congrArg Prod.snd ended
        rw [conclude_machine]
        exact ⟨isRaised_of_logs (m := after) rfl logs up, flag⟩
      · cases interrupted.symm.trans streamed

/-- A machine under a raised flag that has taken some steps already. -/
def busy : Machine :=
  { start #[] (.ofReader []) .fromStart ⟨0, false, false⟩ with stats := { Stats.zero with steps := 8186 } }

/-- `(\x -> x x) (\x -> x x)` -/
def selfApplied : Term :=
  .app (.lam (.synthetic "x") (.app (Builtin.v 0 "x") (Builtin.v 0 "x")))
    (.lam (.synthetic "x") (.app (Builtin.v 0 "x") (Builtin.v 0 "x")))

theorem run_interrupted_selfApplied : busy.isRaised = true ∧
    ∃ last, (∀ fuel, 6 ≤ fuel → busy.run fuel selfApplied = (.fault ⟨.interrupted, none, []⟩, last)) ∧
      last.stats.steps = 8192 ∧ last.isRaised = true := by
  obtain ⟨-, stops, flagged⟩ := run_interrupted busy selfApplied
  obtain ⟨result, last, runs, -, -⟩ := stops rfl
  have first : busy.run 6 selfApplied = (result, last) := runs 6 (by decide)
  have stopped : (busy.run 6 selfApplied).1 = .fault ⟨.interrupted, none, []⟩ := rfl
  have count : (busy.run 6 selfApplied).2.stats.steps = 8192 := rfl
  rw [first] at stopped count
  obtain rfl : result = .fault ⟨.interrupted, none, []⟩ := stopped
  exact ⟨rfl, last, runs, count, (flagged 6 _ last first rfl).1⟩

end Machine

end MixfixLambda
