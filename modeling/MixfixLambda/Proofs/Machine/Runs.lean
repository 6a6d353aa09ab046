import MixfixLambda.Machine.Run
import MixfixLambda.Proofs.Machine.Rules

/-!
# Runs of steps

What the rules say of one step, carried to runs of any length: a property that every move keeps holds in
every configuration that is reached, and a run ends at a value or by a rule of failure.
-/
namespace MixfixLambda

/-- How the configurations that one more step is granted to are related. -/
def Config.Next (c c' : Config) : Prop :=
  c' = c ∨ c.Moves c' ∨ ∃ cause, c.Fails cause c'

/-- What a run comes to whose configurations all have a property, the last of a failed one apart. -/
def RunResult.Ends (P : Config → Prop) (last : Config) : RunResult → Prop
  | .outOfFuel => P last
  | .value v => P last ∧ last.Halts v
  | .fault error => ∃ c, P c ∧ c.Fails error.cause last

namespace Machine

theorem steps_ends {P : Config → Prop} (moves : ∀ c c', P c → c.Moves c' → P c') (fuel : Nat)
    (m : Machine) (initial : P m.config) :
    (steps fuel m).1.Ends P (steps fuel m).2.config := by
  induction fuel generalizing m with
  | zero => exact initial
  | succ fuel ih =>
    have obeys := m.step_obeys
    unfold steps
    split
    · next after step =>
      rw [step] at obeys
      exact ih after (moves _ _ initial obeys)
    · next v after step =>
      rw [step] at obeys
      obtain ⟨halts, same⟩ := obeys
      change P after.config ∧ after.config.Halts v
      rw [same]
      exact ⟨initial, halts⟩
    · next fault after step =>
      rw [step] at obeys
      exact ⟨m.config, initial, obeys⟩

/-- A property that no step loses, not even one that fails, holds in every configuration of a run. -/
theorem steps_keep {P : Config → Prop} (moves : ∀ c c', P c → c.Moves c' → P c')
    (fails : ∀ c cause c', P c → c.Fails cause c' → P c') (fuel : Nat) (m : Machine)
    (initial : P m.config) : P (steps fuel m).2.config := by
  have ends := steps_ends moves fuel m initial
  match (steps fuel m).1, ends with
  | .outOfFuel, holds => exact holds
  | .value v, ⟨holds, _⟩ => exact holds
  | .fault fault, ⟨c, holds, failure⟩ => exact fails c fault.cause _ holds failure

theorem steps_add (first second : Nat) (m : Machine) :
    steps (first + second) m = match steps first m with
      | (.outOfFuel, later) => steps second later
      | ended => ended := by
  induction first generalizing m with
  | zero => rw [Nat.zero_add, steps]
  | succ first ih =>
    rw [Nat.succ_add, steps, steps]
    cases m.step with
    | running after => exact ih after
    | finished v after => rfl
    | faulted fault after => rfl

theorem steps_next (fuel : Nat) (m : Machine) :
    (steps fuel m).2.config.Next (steps (fuel + 1) m).2.config := by
  rw [steps_add]
  match steps fuel m with
  | (.value v, ended) => exact .inl rfl
  | (.fault fault, ended) => exact .inl rfl
  | (.outOfFuel, later) =>
    have obeys := later.step_obeys
    dsimp only
    unfold steps
    split
    · next after step =>
      rw [step] at obeys
      exact .inr (.inl obeys)
    · next v after step =>
      rw [step] at obeys
      exact .inl obeys.2
    · next fault after step =>
      rw [step] at obeys
      exact .inr (.inr ⟨_, obeys⟩)

/-- A value stays the result of a run whose streams can be flushed. -/
theorem conclude_flushed (m : Machine) (value : Value) {s : Streams} (flushed : flushAll m.streams = (.ok (), s)) :
    ∃ after, conclude (.value value) m = (.value value, after) ∧ after.streams = s := by
  unfold conclude onStreams
  dsimp only
  rw [flushed]
  exact ⟨_, rfl, rfl⟩

/-- With enough fuel the term comes to the integer, and the streams to the given ones before they are flushed. -/
def Yields (m : Machine) (t : Term) (value : Int) (streams : Streams) : Prop :=
  ∃ enough env last, (∀ fuel, enough ≤ fuel → m.run fuel t = (.value ⟨.int value, env⟩, last)) ∧
    last.streams = (flushAll streams).2

/-- With enough fuel the term comes to a fault for the cause. -/
def Stops (m : Machine) (t : Term) (cause : FaultCause) : Prop :=
  ∃ enough fault last, (∀ fuel, enough ≤ fuel → m.run fuel t = (.fault fault, last)) ∧ fault.cause = cause

section Outcomes

variable {m : Machine} {t : Term}

theorem yields_of_steps {value : Int} {env : Env} {enough : Nat} {after : Machine}
    (flushes : (flushAll after.streams).1 = .ok ())
    (steps : ∀ fuel, enough ≤ fuel → steps fuel (m.load t) = (.value ⟨.int value, env⟩, after)) :
    m.Yields t value after.streams := by
  obtain ⟨last, concluded, streams⟩ :=
    after.conclude_flushed ⟨.int value, env⟩ (s := (flushAll after.streams).2) (by rw [← flushes])
  refine ⟨enough, env, last, fun fuel more => ?_, streams⟩
  rw [run, steps fuel more]
  exact concluded

theorem stops_of_steps {fault : Fault} {enough : Nat} {after : Machine}
    (steps : ∀ fuel, enough ≤ fuel → steps fuel (m.load t) = (.fault fault, after)) : m.Stops t fault.cause := by
  refine ⟨enough, fault, (conclude (.fault fault) after).2, fun fuel more => ?_, rfl⟩
  rw [run, steps fuel more]
  rfl

end Outcomes

section Start

variable (globals : Array Global) (streams : Streams) (interrupt : Interrupt) (options : Options)
  (entry : Term)

/-- On a new machine no thunk has been made. -/
theorem start_closureAt (thunk : Nat) :
    ((start globals streams interrupt options).load entry).config.heap.closureAt thunk = default :=
  Heap.closureAt_of_size_le (Nat.zero_le thunk)

/-- On a new machine no global has a thunk. -/
theorem start_constants (index thunk : Nat) :
    ((start globals streams interrupt options).load entry).config.constants[index]? ≠ some (some thunk) := by
  intro known
  obtain ⟨inside, known⟩ := Array.getElem?_eq_some_iff.mp known
  simp [start, load, config] at known

end Start

end Machine

/-- How a two-place operation fails. -/
theorem Builtin.binary_error {operation : Builtin} {a b : Int} {cause : FaultCause}
    (two : operation.arity = 2) (answer : operation.binary a b = .error cause) :
    cause = .divideByZero ∨ cause = .moduloByZero ∨ cause = .overflow operation := by
  have overflows : ∀ result, checked operation result = .error cause → cause = .overflow operation := by
    intro result refused
    unfold checked at refused
    split at refused
    · cases refused
    · exact (Except.error.inj refused).symm
  cases operation with
  | add | sub | mul => exact .inr (.inr (overflows _ answer))
  | div =>
    simp only [binary] at answer
    split at answer
    · exact .inl (Except.error.inj answer).symm
    · exact .inr (.inr (overflows _ answer))
  | mod =>
    simp only [binary] at answer
    split at answer
    · exact .inr (.inl (Except.error.inj answer).symm)
    · split at answer
      · cases answer
      · exact .inr (.inr (Except.error.inj answer).symm)
  | eq | ne | lt | le | gt | ge => cases answer
  | put | get | abort => cases two

namespace Config

/-- A loop is found only where a step cannot go on with a thunk. -/
theorem Fails.demand_of_loop {c c' : Config} (failure : c.Fails .loop c') :
    ∃ thunk, c.Demands thunk c' ∧ (c'.heap.closureAt thunk).state = .running := by
  cases failure with
  | loop demand running => exact ⟨_, demand, running⟩
  | compute focus top both two answer =>
    rcases Builtin.binary_error two answer with impossible | impossible | impossible <;> cases impossible
  | talk focus top talks refused =>
    rcases refused with impossible | ⟨error, impossible⟩ <;> cases impossible

theorem Demands.globals {c middle : Config} {thunk : Nat} (demand : c.Demands thunk middle) :
    middle.globals = c.globals := by
  cases demand <;> rfl

theorem Enters.globals {c after : Config} {thunk : Nat} (entry : c.Enters thunk after) :
    after.globals = c.globals := by
  cases entry <;> rfl

/-- The table of globals never changes. -/
theorem Moves.globals {c c' : Config} (move : c.Moves c') : c'.globals = c.globals := by
  cases move with
  | enter demand entry => exact entry.globals.trans demand.globals
  | _ => rfl

/-- Nobody raises the interrupt flag from inside. -/
theorem Moves.interrupt {c c' : Config} (move : c.Moves c') : c'.interrupt = c.interrupt := by
  cases move with
  | enter demand entry => cases demand <;> cases entry <;> rfl
  | _ => rfl

theorem Fails.globals {c c' : Config} {cause : FaultCause} (failure : c.Fails cause c') :
    c'.globals = c.globals := by
  cases failure with
  | loop demand running => exact demand.globals
  | _ => rfl

end Config

end MixfixLambda
