import MixfixLambda.Proofs.Machine.Runs

/-!
# What a call of `abort` comes to

A call of `abort` leaves a frame on the spine that waits for the message. No step takes this frame off unless it
fails, so that a run that calls `abort` has no value. As soon as the message is an integer or an abstraction, the
run is aborted. An operation that is short of arguments is refused like an operand of arithmetic.
-/
namespace MixfixLambda

namespace Config

variable {c c' : Config} {arguments : List Nat} {above below rest : List Frame} {frame innermost : Frame}

/-- A frame that is no argument stays beneath the arguments. -/
theorem Waits.beneath (split : Waits (above ++ frame :: below) arguments rest)
    (waits : ∀ thunk, frame ≠ .arg thunk) : ∃ above', rest = above' ++ frame :: below := by
  unfold Waits at split
  induction arguments generalizing above with
  | nil => exact ⟨above, split.symm⟩
  | cons thunk arguments ih =>
    cases above with
    | nil => exact absurd (List.cons.inj split).1 (waits thunk)
    | cons first above => exact ih (List.cons.inj split).2

/-- A message is waited for: what is beneath has not been touched since `abort` was called. -/
def Aborts (tag : Tag) (below : List Frame) (c : Config) : Prop :=
  ∃ above backtrace, c.frames = above ++ .force .abort tag [] [] backtrace :: below

variable {tag : Tag}

/-- A frame on top of the spine is the one that waits for the message, or another one above it. -/
theorem Aborts.top (aborts : c.Aborts tag below) (here : c.frames = innermost :: rest) :
    (∃ backtrace, innermost = .force .abort tag [] [] backtrace) ∨
      ∃ above backtrace, rest = above ++ .force .abort tag [] [] backtrace :: below := by
  obtain ⟨above, backtrace, split⟩ := aborts
  rw [here] at split
  cases above with
  | nil => exact .inl ⟨backtrace, (List.cons.inj split).1⟩
  | cons first above => exact .inr ⟨above, backtrace, (List.cons.inj split).2⟩

theorem Aborts.push (aborts : c.Aborts tag below) (pushed : c'.frames = frame :: c.frames) : c'.Aborts tag below := by
  obtain ⟨above, backtrace, split⟩ := aborts
  exact ⟨frame :: above, backtrace, by rw [pushed, split, List.cons_append]⟩

theorem Aborts.waits (aborts : c.Aborts tag below) (split : Waits c.frames arguments rest) :
    ∃ above backtrace, rest = above ++ .force .abort tag [] [] backtrace :: below := by
  obtain ⟨above, backtrace, frames⟩ := aborts
  rw [frames] at split
  obtain ⟨above', beneath⟩ := split.beneath fun thunk => by simp
  exact ⟨above', backtrace, beneath⟩

theorem Aborts.demands {thunk : Nat} (aborts : c.Aborts tag below) (demand : c.Demands thunk c') :
    c'.Aborts tag below := by
  cases demand with
  | lookup => exact aborts
  | constant => exact aborts
  | fresh => exact aborts
  | next focus here strict =>
    rcases aborts.top here with ⟨_, same⟩ | ⟨above, backtrace, rest⟩
    · cases same
    · exact ⟨_ :: above, backtrace, by rw [rest]; rfl⟩
  | call focus split =>
    obtain ⟨above, backtrace, rest⟩ := aborts.waits split
    exact ⟨_ :: above, backtrace, by rw [rest]; rfl⟩

theorem Aborts.enters {thunk : Nat} (aborts : c.Aborts tag below) (entry : c.Enters thunk c') :
    c'.Aborts tag below := by
  cases entry with
  | done => exact aborts
  | pending => exact aborts.push rfl

/-- No step takes off the frame that waits for the message. -/
theorem Aborts.moves (aborts : c.Aborts tag below) (move : c.Moves c') : c'.Aborts tag below := by
  cases move with
  | enter demand entry => exact (aborts.demands demand).enters entry
  | share => exact aborts.push rfl
  | delay => exact aborts.push rfl
  | apply focus here =>
    rcases aborts.top here with ⟨_, same⟩ | rest
    · cases same
    · exact rest
  | update value here =>
    rcases aborts.top here with ⟨_, same⟩ | rest
    · cases same
    · exact rest
  | compute focus here both two =>
    rcases aborts.top here with ⟨_, same⟩ | rest
    · cases same
      cases two
    · exact rest
  | talk focus here answer =>
    rcases aborts.top here with ⟨_, same⟩ | rest
    · cases same
      simp at answer
    · exact rest
  | unfold => exact aborts
  | iterate => exact aborts.push rfl
  | vanish => exact aborts
  | hold focus split short =>
    obtain ⟨above, backtrace, rest⟩ := aborts.waits split
    cases above with
    | nil => cases (List.cons.inj rest).1
    | cons first above => exact ⟨above, backtrace, (List.cons.inj rest).2⟩

/-- The step that calls `abort` goes on with the message. -/
theorem aborts_of_call {message : Nat} (focus : c.term = .builtin .abort tag)
    (called : c.frames = .arg message :: below) (move : c.Moves c') : c'.Aborts tag below := by
  have other {term : Term} (different : c.term = term) (kind : term ≠ .builtin .abort tag) : c'.Aborts tag below :=
    absurd (different.symm.trans focus) kind
  cases move with
  | enter demand entry =>
    cases demand with
    | call focus' split enough quiet =>
      obtain ⟨rfl, rfl⟩ := Term.builtin.inj (focus'.symm.trans focus)
      obtain rfl := List.eq_nil_of_length_eq_zero (Nat.succ.inj enough)
      obtain ⟨-, rfl⟩ := List.cons.inj (split.symm.trans called)
      exact Aborts.enters ⟨[], _, rfl⟩ entry
    | lookup different => exact other different (by simp)
    | constant different => exact other different (by simp)
    | fresh different => exact other different (by simp)
    | next different => exact other different (by simp)
  | hold focus' split short =>
    obtain ⟨rfl, rfl⟩ := Term.builtin.inj (focus'.symm.trans focus)
    obtain rfl := List.eq_nil_of_length_eq_zero (Nat.lt_one_iff.mp short)
    cases (List.cons.inj (split.symm.trans called)).1
  | update value =>
    rw [focus] at value
    exact value.elim
  | share different => exact other different (by simp)
  | delay different => exact other different (by simp)
  | apply different => exact other different (by simp)
  | compute different => exact other different (by simp)
  | talk different => exact other different (by simp)
  | unfold different => exact other different (by simp)
  | iterate different => exact other different (by simp)
  | vanish different => exact other different (by simp)

end Config

namespace Machine

open Config

variable {m : Machine} {tag : Tag} {values : List Int} {pending : List Nat} {backtrace : Backtrace}
  {below : List Frame}

theorem tick_eq (m : Machine) : ∃ stats traced, m.tick = { m with stats, traced } := by
  unfold tick
  dsimp only
  split
  · exact ⟨_, _, rfl⟩
  · exact ⟨_, _, rfl⟩

/-- The message is a value that is complete: the run is aborted, at the place of the call. -/
theorem reduce_aborts (value : m.term.Settles)
    (top : m.spine.frames = .force .abort tag values pending backtrace :: below) :
    ∃ last, m.reduce = .faulted ({ m with backtrace }.faultAt .abort (some tag)) last := by
  have here : m.spine.top? = some (.force .abort tag values pending backtrace) := by
    rw [Spine.top?, top, List.head?_cons]
  have settles : m.reduce = m.settle := by
    rcases value.int_or_lam with ⟨n, focus⟩ | ⟨name, body, focus⟩
    · simp only [reduce, focus, here]
    · simp only [reduce, focus, here]
  rw [settles, settle, here]
  exact ⟨_, rfl⟩

/-- The message is an operation short of arguments: it is refused, at the place of the call. -/
theorem reduce_refuses {operation : Builtin} {place : Tag} {arguments : List Nat}
    (focus : m.term = .builtin operation place)
    (top : Waits m.spine.frames arguments (.force .abort tag values pending backtrace :: below))
    (short : arguments.length < operation.arity) :
    m.reduce = .faulted (m.faultAt (.typeMismatch .abort) (some tag)) m := by
  have count : m.spine.available = arguments.length := by
    rw [Spine.available, show m.spine.frames = _ from top, List.takeWhile_append_of_pos]
    · simp [Frame.isArg]
    · simp [Frame.isArg]
  have here : (m.spine.drop arguments.length).top? = some (.force .abort tag values pending backtrace) := by
    simp [Spine.drop, Spine.top?, show m.spine.frames = _ from top]
  simp only [reduce, focus, count, if_pos short, partialApplication, here]
  rfl

/-- A step that looks at no interrupt flag, or finds it down, fails as its reduction does. -/
theorem step_of_reduce {fault : Fault} (awake : m.tick.isInterrupted = false)
    (fails : ∃ last, m.tick.reduce = .faulted fault last) : ∃ last, m.step = .faulted fault last := by
  obtain ⟨last, reduced⟩ := fails
  refine ⟨last, ?_⟩
  unfold step
  dsimp only
  rw [awake, ← reduced]
  rfl

theorem step_aborts (awake : m.tick.isInterrupted = false) (value : m.term.Settles)
    (top : m.spine.frames = .force .abort tag values pending backtrace :: below) :
    ∃ last, m.step = .faulted ({ m with backtrace }.faultAt .abort (some tag)) last := by
  refine step_of_reduce awake ?_
  obtain ⟨stats, traced, ticked⟩ := m.tick_eq
  rw [ticked]
  exact reduce_aborts value top

theorem step_refuses (awake : m.tick.isInterrupted = false) {operation : Builtin} {place : Tag}
    {arguments : List Nat} (focus : m.term = .builtin operation place)
    (top : Waits m.spine.frames arguments (.force .abort tag values pending backtrace :: below))
    (short : arguments.length < operation.arity) :
    ∃ last, m.step = .faulted (m.faultAt (.typeMismatch .abort) (some tag)) last := by
  refine step_of_reduce awake ?_
  obtain ⟨stats, traced, ticked⟩ := m.tick_eq
  rw [ticked]
  exact ⟨_, reduce_refuses focus top short⟩

theorem steps_of_fault {fuel enough : Nat} {reached : Machine} {fault : Fault}
    (reaches : steps fuel m = (.outOfFuel, reached)) (fails : ∃ last, reached.step = .faulted fault last)
    (more : fuel < enough) : (steps enough m).1 = .fault fault := by
  obtain ⟨last, step⟩ := fails
  obtain ⟨rest, rfl⟩ := Nat.exists_eq_add_of_lt more
  rw [Nat.add_assoc, steps_add, reaches]
  simp only [steps, step]

/-- Once `abort` has been called, its message is waited for as long as the run lasts. -/
theorem steps_abort {message : Nat} (focus : m.term = .builtin .abort tag)
    (called : m.spine.frames = .arg message :: below) (fuel : Nat) :
    (steps (fuel + 1) m).1.Ends (Aborts tag below) (steps (fuel + 1) m).2.config ∨
      ∃ fault last, steps (fuel + 1) m = (.fault fault, last) := by
  have obeys := m.step_obeys
  unfold steps
  split
  · next after step =>
    rw [step] at obeys
    exact .inl (steps_ends (fun _ _ aborts move => aborts.moves move) fuel after (aborts_of_call focus called obeys))
  · next value last step =>
    rw [step] at obeys
    have settles : m.term.Settles := obeys.1.value
    rw [focus] at settles
    exact settles.elim
  · next fault last step => exact .inr ⟨fault, last, rfl⟩

/-- A run that calls `abort` never has a value. If the message becomes an integer or an abstraction then the run
is aborted, and if it becomes an operation short of arguments then `abort` refuses it as no integer. -/
theorem abort_outcome {message : Nat} (focus : m.term = .builtin .abort tag)
    (called : m.spine.frames = .arg message :: below) (fuel : Nat) :
    (∀ value, (steps fuel m).1 ≠ .value value) ∧
      ∀ reached, steps fuel m = (.outOfFuel, reached) → reached.tick.isInterrupted = false → ∀ backtrace,
        (reached.term.Settles → reached.spine.frames = .force .abort tag [] [] backtrace :: below →
          ∀ enough > fuel,
            (steps enough m).1 = .fault ({ reached with backtrace }.faultAt .abort (some tag))) ∧
        ∀ operation place arguments, reached.term = .builtin operation place →
          Waits reached.spine.frames arguments (.force .abort tag [] [] backtrace :: below) →
          arguments.length < operation.arity →
          ∀ enough > fuel,
            (steps enough m).1 = .fault (reached.faultAt (.typeMismatch .abort) (some tag)) := by
  refine ⟨fun value ends => ?_, fun reached reaches awake backtrace => ⟨fun settles top enough more => ?_,
    fun operation place arguments focus' top short enough more => ?_⟩⟩
  · cases fuel with
    | zero => cases ends
    | succ fuel =>
      rcases steps_abort focus called fuel with waits | ⟨fault, last, failed⟩
      · rw [ends] at waits
        obtain ⟨⟨above, backtrace, frames⟩, halts⟩ := waits
        rw [halts.bare] at frames
        simp at frames
      · rw [failed] at ends
        cases ends
  · exact steps_of_fault reaches (step_aborts awake settles top) more
  · exact steps_of_fault reaches (step_refuses awake focus' top short) more

/-- `abort 5`, from the step on that calls `abort`. -/
theorem abort_outcome_five :
    let abort := Tag.synthetic "abort"
    let m := (steps 1 ((start #[] .idle .never ⟨0, false, true⟩).load (.app (.builtin .abort abort) (.int 5)))).2
    m.term = .builtin .abort abort ∧ m.spine.frames = [.arg 0] ∧ (steps 2 m).1 = .fault ⟨.abort, none, []⟩ := by
  intro abort m
  have focus : m.term = .builtin .abort abort := rfl
  have called : m.spine.frames = [.arg 0] := rfl
  have outcome := (abort_outcome focus called 1).2 _ rfl (by decide) .empty
  exact ⟨focus, called, outcome.1 trivial rfl 2 (by decide)⟩

/-- `abort put`: the message is `put`, which is short of its argument, and the run is not aborted. -/
theorem abort_refuses_put :
    let abort := Tag.synthetic "abort"
    let put := Tag.synthetic "put"
    let m := start #[] .idle .never ⟨0, false, true⟩
    let program := Term.app (.builtin .abort abort) (.builtin .put put)
    (∃ reached, steps 2 (m.load program) = (.outOfFuel, reached) ∧ reached.term = .builtin .put put ∧
      reached.spine.frames = [.force .abort abort [] [] .empty]) ∧
      ∃ last, run 3 m program = (.fault ⟨.typeMismatch .abort, none, []⟩, last) := by
  intro abort put m program
  exact ⟨⟨_, rfl, rfl, rfl⟩, ⟨_, rfl⟩⟩

end Machine

end MixfixLambda
