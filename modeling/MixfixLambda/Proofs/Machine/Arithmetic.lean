import MixfixLambda.Proofs.Machine.Embedding
import MixfixLambda.Proofs.Machine.Episodes
import MixfixLambda.Proofs.Machine.Residue

/-!
# Arithmetic is exact

An arithmetic operation evaluates its operands from left to right, each as if it were alone, and then has the exact
result, unless that does not fit. There is one pair of operands for which it is more careful than that: the
remainder of the least integer by -1 is 0, but it is refused because the quotient does not fit.
-/
namespace MixfixLambda

/-! ### Operations on integers -/

namespace Builtin

variable {operation : Builtin} {a b exact : Int}

def arithmetic : List Builtin :=
  [.add, .sub, .mul, .div, .mod]

/-- The exact result of an arithmetic operation. Division goes toward zero, the remainder has the sign of the
dividend, and there is no result for the divisor zero. -/
def unbounded? (operation : Builtin) (a b : Int) : Option Int :=
  match operation with
  | .add => some (a + b)
  | .sub => some (a - b)
  | .mul => some (a * b)
  | .div => if b = 0 then none else some (a.tdiv b)
  | .mod => if b = 0 then none else some (a.tmod b)
  | _ => none

/-- Only a division by zero has no result. -/
theorem exists_exact (arithmetic : operation ∈ arithmetic)
    (divisor : ¬ (operation = .div ∧ b = 0) ∧ ¬ (operation = .mod ∧ b = 0)) :
    ∃ exact, operation.unbounded? a b = some exact := by
  simp only [Builtin.arithmetic, List.mem_cons, List.not_mem_nil, or_false] at arithmetic
  rcases arithmetic with rfl | rfl | rfl | rfl | rfl
  · exact ⟨a + b, rfl⟩
  · exact ⟨a - b, rfl⟩
  · exact ⟨a * b, rfl⟩
  · exact ⟨a.tdiv b, if_neg fun zero => divisor.1 ⟨rfl, zero⟩⟩
  · exact ⟨a.tmod b, if_neg fun zero => divisor.2 ⟨rfl, zero⟩⟩

/-- The remainder is refused because of its quotient. -/
def Refuses (operation : Builtin) (a b : Int) : Prop :=
  operation = .mod ∧ a = minInt ∧ b = -1

/-- A quotient of integers fits, but for that of the least one by -1. -/
theorem fitsInt_tdiv_iff (fits : fitsInt a = true) (divisor : b ≠ 0) :
    fitsInt (a.tdiv b) = true ↔ ¬ (a = minInt ∧ b = -1) := by
  simp only [fitsInt_iff, minInt, maxInt] at fits ⊢
  have size := Int.natAbs_tdiv a b
  by_cases unit : b.natAbs = 1
  · have sign : b = 1 ∨ b = -1 := by omega
    rcases sign with rfl | rfl
    · rw [Int.tdiv_one]
      omega
    · rw [Int.tdiv_neg, Int.tdiv_one]
      omega
  · have half : a.natAbs / b.natAbs ≤ a.natAbs / 2 := Nat.div_le_div_left (by omega) (by decide)
    change _ = a.natAbs / b.natAbs at size
    omega

/-- A remainder is between zero and the dividend. -/
theorem fitsInt_tmod (fits : fitsInt a = true) : fitsInt (a.tmod b) = true := by
  simp only [fitsInt_iff, minInt, maxInt] at fits ⊢
  have size := Int.natAbs_tmod a b
  have le := Nat.mod_le a.natAbs b.natAbs
  rcases Int.le_total 0 a with positive | negative
  · have sign := Int.tmod_nonneg b positive
    omega
  · have sign := Int.tmod_nonneg b (Int.neg_nonneg_of_nonpos negative)
    rw [Int.neg_tmod] at sign
    omega

/-- What an arithmetic operation comes to where there is an exact result. -/
theorem binary_of_exact (fits : fitsInt a = true) (known : operation.unbounded? a b = some exact) :
    operation.arity = 2 ∧
      (fitsInt exact = true → ¬ operation.Refuses a b → operation.binary a b = .ok (.int exact)) ∧
      (fitsInt exact ≠ true ∨ operation.Refuses a b → operation.binary a b = .error (.overflow operation)) := by
  have checks : ∀ operation : Builtin, (∀ a b, ¬ operation.Refuses a b) →
      (fitsInt exact = true → ¬ operation.Refuses a b → operation.checked exact = .ok (.int exact)) ∧
        (fitsInt exact ≠ true ∨ operation.Refuses a b → operation.checked exact = .error (.overflow operation)) := by
    intro operation never
    unfold checked
    refine ⟨fun inside _ => if_pos inside, fun outside => if_neg (outside.resolve_right (never a b))⟩
  cases operation with
  | add | sub | mul =>
    cases known
    exact ⟨rfl, checks _ (by simp [Refuses])⟩
  | div =>
    by_cases divisor : b = 0
    · simp [unbounded?, divisor] at known
    · obtain rfl : a.tdiv b = exact := by simpa [unbounded?, divisor] using known
      unfold binary
      rw [if_neg divisor]
      exact ⟨rfl, checks _ (by simp [Refuses])⟩
  | mod =>
    by_cases divisor : b = 0
    · simp [unbounded?, divisor] at known
    · obtain rfl : a.tmod b = exact := by simpa [unbounded?, divisor] using known
      have remainder := fitsInt_tmod (b := b) fits
      have quotient := fitsInt_tdiv_iff fits divisor
      refine ⟨rfl, fun _ accepted => ?_, fun refused => ?_⟩
      · have inside := quotient.2 fun both => accepted ⟨rfl, both⟩
        simp [binary, divisor, inside]
      · obtain ⟨-, both⟩ := refused.resolve_left fun outside => outside remainder
        have outside : fitsInt (a.tdiv b) = false := by simpa using fun inside => quotient.1 inside both
        simp [binary, divisor, outside]
  | _ => cases known

end Builtin

/-! ### Operands -/

namespace Machine

open Config

/-- The term comes to the integer, and the machine to the given one. -/
def Evaluates (m : Machine) (t : Term) (value : Int) (after : Machine) : Prop :=
  ∃ fuel env, steps fuel (m.load t) = (.value ⟨.int value, env⟩, after)

/-- The cause of the fault that a run comes to. -/
def cause? : RunResult → Option FaultCause
  | .fault fault => some fault.cause
  | _ => none

/-- The integer that a run comes to. -/
def int? : RunResult → Option Int
  | .value value => value.int?
  | _ => none

/-- A machine on which any terms have been run. -/
inductive Used : Machine → Prop
  | start (globals : Array Global) (streams : Streams) (interrupt : Interrupt) (options : Options) :
      Used (start globals streams interrupt options)
  | run {m : Machine} (earlier : Used m) (fuel : Nat) (entry : Term) : Used (m.run fuel entry).2

variable {m m₁ m₂ own last : Machine} {g : Gap} {kept : Nat → Closure} {t l r : Term} {a b : Int} {operation : Builtin}
  {tag : Tag}

theorem evaluates_of_int {fuel : Nat} (comes : int? (steps fuel (m.load t)).1 = some a) :
    m.Evaluates t a (steps fuel (m.load t)).2 := by
  generalize run : steps fuel (m.load t) = ended at comes
  obtain ⟨result, last⟩ := ended
  cases result with
  | value v =>
    obtain ⟨term, env⟩ := v
    cases term with
    | int n =>
      cases comes
      exact ⟨fuel, env, run⟩
    | _ => cases comes
  | _ => cases comes

theorem Used.addressed (used : m.Used) (entry : Term) : (m.load entry).config.Addressed := by
  induction used generalizing entry with
  | start => exact .start ..
  | run earlier fuel last ih =>
    have ended := steps_keep (P := Config.Addressed) (fun _ _ addressed move => addressed.move move)
      (fun _ _ _ addressed failure => addressed.fail failure) fuel _ (ih last)
    rw [Machine.run, conclude_load_config]
    exact ended.reset _ _

/-- Bytes go where they did behind a step that does not call `abort`. -/
theorem step_aborting (quiet : m.callsAbort = false) : m.step.machine.aborting = m.aborting := by
  have episode := m.step_performs.episode
  rw [tick_aborting] at episode
  have quiet' : m.tick.callsAbort = false := by
    obtain ⟨stats, traced, ticked⟩ := m.tick_eq
    rw [ticked, ← quiet]
    rfl
  have silent : Event.abort ∉ m.tick.happens m.step := by simp [happens, quiet']
  generalize m.tick.happens m.step = events, m.step.machine.aborting = after, m.step.isRunning = runs at episode silent ⊢
  cases episode with
  | abort => simp at silent
  | _ => rfl

/-- A run that has called `abort` has no value. -/
theorem aborting_of_value {fuel : Nat} {value : Value} (quiet : m.aborting = false)
    (ends : steps fuel m = (.value value, last)) : last.aborting = false := by
  induction fuel generalizing m with
  | zero => cases ends
  | succ fuel ih =>
    cases calls : m.callsAbort with
    | true =>
      unfold callsAbort at calls
      split at calls
      · next tag focus =>
        obtain ⟨message, below, called⟩ : ∃ message below, m.spine.frames = .arg message :: below := by
          obtain ⟨arguments, below, waits, count, -⟩ := m.spine.available_split
          cases arguments with
          | nil => simp [← count] at calls
          | cons message arguments => exact ⟨message, _, waits⟩
        have never := (abort_outcome focus called (fuel + 1)).1 value
        rw [ends] at never
        exact absurd rfl never
      · cases calls
    | false =>
      have same := (step_aborting calls).trans quiet
      rw [steps] at ends
      cases result : m.step with
      | running next =>
        rw [result] at ends same
        exact ih same ends
      | faulted fault after =>
        rw [result] at ends
        cases ends
      | finished v after =>
        rw [result] at ends same
        cases ends
        exact same

/-- A variable has no value where nothing is bound. -/
theorem Evaluates.complex (evaluates : m.Evaluates t a m₁) (never : m.interrupt = .never) : ¬ t.IsVar := by
  obtain ⟨fuel, env, ends⟩ := evaluates
  cases t with
  | var depth name =>
    intro _
    obtain ⟨stats, traced, ticked⟩ := (m.load (.var depth name)).tick_eq
    cases fuel with
    | zero => cases ends
    | succ fuel =>
      rw [steps, step_of_never (show (m.load _).interrupt = _ from never), ticked] at ends
      cases ends
  | _ => exact id

/-- A thunk is made for an argument where nothing is bound. -/
theorem step_of_app {left right : Term} (never : m.interrupt = .never) (focus : m.term = .app left right)
    (complex : ¬ right.IsVar) (unbound : m.locals = []) :
    ∃ stats traced, m.step = .running { m with
      stats, traced, term := left, heap := m.heap.push (Closure.of right [] m.backtrace)
      spine := m.spine.push (.arg m.heap.size) } := by
  obtain ⟨stats, traced, ticked⟩ := m.tick_eq
  refine ⟨{ stats with thunks := stats.thunks + 1 }, traced, ?_⟩
  rw [step_of_never never, ticked]
  unfold reduce
  dsimp only
  rw [focus]
  cases right with
  | var => exact absurd trivial complex
  | int | builtin | global => rfl
  | lam | app =>
    dsimp only [delay]
    rw [unbound]
    rfl

/-- An operation with two arguments needs the first one. -/
theorem step_of_binary {first second : Nat} (never : m.interrupt = .never) (focus : m.term = .builtin operation tag)
    (two : operation.arity = 2) (top : m.spine.frames = [.arg first, .arg second]) :
    ∃ stats traced spine, m.step = enter { m with stats, traced, spine } first ∧
      spine.frames = [.force operation tag [] [second] m.backtrace] := by
  obtain ⟨stats, traced, ticked⟩ := m.tick_eq
  have strict : operation ≠ .abort := by
    rintro rfl
    cases two
  have waits : Waits m.spine.frames [first, second] [] := top
  obtain ⟨enough, taken, rest⟩ := Spine.popArguments_of_waits waits
  rw [show [first, second].length = operation.arity from two.symm] at enough taken rest
  refine ⟨stats, traced, (m.spine.popArguments operation.arity).2.push (.force operation tag [] [second] m.backtrace),
    ?_, by rw [Spine.push_frames, rest]⟩
  rw [step_of_never never, ticked, reduce_of_builtin (m := { m with stats, traced }) focus]
  dsimp only
  rw [if_neg (by omega), taken, call]
  dsimp only
  rw [if_neg strict]

/-- The machine goes on with a thunk in the gap, and comes to the value that its term has for the other machine. -/
theorem Hosts.force {fuel : Nat} {value : Value} (thunk : Nat) (hosts : Hosts g kept own m) (quiet : own.aborting = false)
    (behind : g.start ≤ thunk) (before : thunk < g.start + g.width) (delayed : kept thunk = Closure.of t [] .empty)
    (ends : steps fuel (own.load t) = (.value value, last)) :
    ∃ entered next kept', m.enter thunk = .running entered ∧ entered.Reaches next ∧
      Embeds g kept' m.spine.frames last next ∧ last.config.Halts value ∧
      ∀ other, other ≠ thunk → kept' other = kept other := by
  have found : m.heap.getD thunk default = Closure.of t [] .empty :=
    (hosts.heap.inside thunk behind before).trans delayed
  unfold Machine.enter
  dsimp only
  rw [found]
  by_cases done : t.isValue = true
  · have entered : Embeds g kept m.spine.frames (own.load t)
        { m with term := t, locals := [], backtrace := .empty } :=
      { hosts with
        aborting := hosts.aborting.trans quiet, frames := rfl, term := rfl, locals := rfl, backtrace := rfl }
    obtain ⟨next, reaches, embeds, halts⟩ := entered.steps ends
    refine ⟨_, next, kept, ?_, reaches, embeds, halts, fun _ _ => rfl⟩
    simp [Closure.of, done]
  · have opens := hosts.heap.modify_inside behind before fun c => { c with state := .running }
    have entered : Embeds g (Function.update kept thunk { kept thunk with state := .running })
        (.update thunk :: m.spine.frames) (own.load t)
        { m with
          term := t, locals := [], backtrace := .empty
          heap := m.heap.modify thunk fun c => { c with state := .running }
          spine := m.spine.push (.update thunk) } :=
      { hosts with
        aborting := hosts.aborting.trans quiet, frames := rfl, term := rfl, locals := rfl, backtrace := rfl
        heap := opens }
    obtain ⟨next, reaches, embeds, halts⟩ := entered.steps ends
    -- The value is given to the thunk, and nothing else has been left on the spine.
    have frames : next.tick.spine.frames = .update thunk :: m.spine.frames := by
      rw [embeds.tick_right.frames, show last.spine.frames = [] from halts.bare, List.map_nil, List.nil_append]
    have top : next.tick.spine.top? = some (.update thunk) := by rw [Spine.top?, frames, List.head?_cons]
    have settles : next.tick.term.code.Settles := embeds.tick_right.term ▸ (show last.term.Settles from halts.value).code
    have update : next.step = .running (updateThunk { next.tick with spine := next.tick.spine.pop } thunk) := by
      rw [step_of_never embeds.never.2, State.reduce_of_settles settles (by simp [top]), settle, top]
    have updated := embeds.tick_right.heap.modify_inside behind before (·.update next.tick.term next.tick.locals)
    refine ⟨_, _, _, ?_, reaches.trans (.head update (.refl _)), { embeds.tick_right with frames := ?_, heap := updated },
      halts, fun other different => ?_⟩
    · simp [Closure.of, done]
    · rw [show last.spine.frames = [] from halts.bare]
      exact Spine.pop_frames_of_cons frames
    · rw [Function.update_of_ne different, Function.update_of_ne different]

/-- Thunks that have been there before the gap are where they were. -/
theorem constants_past (addressed : m.config.Addressed) (start : g.start = m.heap.size) :
    m.constants = m.constants.map (Option.map g.past) := by
  refine Array.ext_getElem? fun index => ?_
  rw [Array.getElem?_map]
  cases entry : m.constants[index]? with
  | none => rfl
  | some known =>
    cases known with
    | none => rfl
    | some thunk =>
      have before := addressed.constants index thunk entry
      rw [Option.map_some, Option.map_some, Gap.past_of_lt (start ▸ before)]

/-- An operation on two terms makes thunks of them, and then needs the first one. -/
theorem load_operands (tag : Tag) (addressed : (m.load (.app (.app (.builtin operation tag) l) r)).config.Addressed)
    (never : m.interrupt = .never) (two : operation.arity = 2) (left : ¬ l.IsVar) (right : ¬ r.IsVar) :
    ∃ ready, Hosts ⟨m.heap.size, 2⟩
        (fun thunk => if thunk = m.heap.size then Closure.of r [] .empty else Closure.of l [] .empty)
        (m.load (.app (.app (.builtin operation tag) l) r)) ready ∧
      ready.spine.frames = [.force operation tag [] [m.heap.size] .empty] ∧
      ∀ entered, ready.enter (m.heap.size + 1) = .running entered →
        (m.load (.app (.app (.builtin operation tag) l) r)).Reaches entered := by
  let first := m.load (.app (.app (.builtin operation tag) l) r)
  obtain ⟨stats₁, traced₁, step₁⟩ := step_of_app (m := first) never rfl right rfl
  let second := { first with
    stats := stats₁, traced := traced₁, term := .app (.builtin operation tag) l
    heap := m.heap.push (Closure.of r [] .empty), spine := first.spine.push (.arg m.heap.size) }
  obtain ⟨stats₂, traced₂, step₂⟩ := step_of_app (m := second) never rfl left rfl
  let third := { second with
    stats := stats₂, traced := traced₂, term := .builtin operation tag
    heap := second.heap.push (Closure.of l [] .empty), spine := second.spine.push (.arg second.heap.size) }
  obtain ⟨stats₃, traced₃, spine, step₃, frames⟩ := step_of_binary (m := third) never rfl two rfl
  rw [show second.heap.size = m.heap.size + 1 from Array.size_push _] at step₃
  have opens := Gap.opens_push addressed.closures (Closure.of r [] .empty) (Closure.of l [] .empty)
  refine ⟨{ third with stats := stats₃, traced := traced₃, spine }, ?_, frames, fun entered enters => ?_⟩
  · exact {
      globals := rfl, never := ⟨never, never⟩, aborting := rfl, streams := rfl
      constants := constants_past (m := first) addressed rfl, heap := opens }
  · exact .head step₁ (.head step₂ (.head (step₃.trans enters) (.refl _)))

theorem Evaluates.never (evaluates : m.Evaluates t a m₁) (never : m.interrupt = .never) : m₁.interrupt = .never := by
  obtain ⟨fuel, env, ends⟩ := evaluates
  have kept := steps_ends (P := fun c => c.interrupt = .never) (fun _ _ never move => move.interrupt.trans never) fuel
    (m.load t) never
  rw [ends] at kept
  exact kept.1

theorem Embeds.ended {below : List Frame} {value : Int} {env : Env} (embeds : Embeds g kept below own m)
    (halts : own.config.Halts ⟨.int value, env⟩) : m.term = .int value ∧ m.spine.frames = below := by
  obtain ⟨-, bare, result⟩ := halts
  refine ⟨embeds.term.trans (Value.mk.inj result).1.symm, ?_⟩
  rw [embeds.frames, show own.spine.frames = [] from bare]
  rfl

/-- Both operands are evaluated, one after the other. -/
theorem operands_evaluated (tag : Tag) (used : m.Used) (never : m.interrupt = .never) (two : operation.arity = 2)
    (left : m.Evaluates l a m₁) (right : m₁.Evaluates r b m₂) :
    ∃ last, (m.load (.app (.app (.builtin operation tag) l) r)).Reaches last ∧ last.interrupt = .never ∧
      last.term = .int b ∧ last.spine.frames = [.force operation tag [a] [] .empty] ∧ last.streams = m₂.streams := by
  have closed := left.complex never
  have closed' := right.complex (left.never never)
  have strict : operation ≠ .abort := by
    rintro rfl
    cases two
  obtain ⟨fuel, env, ends⟩ := left
  obtain ⟨fuel', env', ends'⟩ := right
  obtain ⟨ready, hosts, frames, starts⟩ := load_operands tag (used.addressed _) never two closed closed'
  obtain ⟨entered, next, kept, enters, goes, embeds, halts, same⟩ := hosts.force (m.heap.size + 1) rfl
    (Nat.le_succ _) (Nat.lt_succ_self _) (if_neg (Nat.succ_ne_self _)) ends
  obtain ⟨focus, top⟩ := embeds.tick_right.ended halts
  rw [frames] at top
  -- The first value is collected, and the machine goes on with the second operand.
  let collected := { next.tick with
    spine := next.tick.spine.pop.push (.force operation tag ([] ++ [a]) [] .empty) }
  have step : next.step = collected.enter m.heap.size := by
    have first : next.tick.spine.top? = some (.force operation tag [] [m.heap.size] .empty) := by
      rw [Spine.top?, top, List.head?_cons]
    rw [step_of_never embeds.never.2, State.reduce_of_next focus strict first]
  have hosts' : Hosts ⟨m.heap.size, 2⟩ kept m₁ collected := { embeds.tick_right with }
  have delayed : kept m.heap.size = Closure.of r [] .empty := by
    rw [same _ (Nat.succ_ne_self _).symm, if_pos rfl]
  obtain ⟨entered', last, kept', enters', goes', embeds', halts', -⟩ := hosts'.force m.heap.size (aborting_of_value rfl ends)
    (Nat.le_refl _) (Nat.lt_add_of_pos_right Nat.zero_lt_two) delayed ends'
  obtain ⟨focus', top'⟩ := embeds'.ended halts'
  refine ⟨last, ?_, embeds'.never.2, focus', ?_, embeds'.streams⟩
  · exact (starts entered enters).trans (goes.trans (.head (step.trans enters') goes'))
  · rw [top', Spine.push_frames, Spine.pop_frames_of_cons top]
    rfl

/-- An operation on two terms comes to what it answers to their values. -/
theorem run_of_operands (tag : Tag) (used : m.Used) (never : m.interrupt = .never) (two : operation.arity = 2)
    (left : m.Evaluates l a m₁) (right : m₁.Evaluates r b m₂) :
    (∀ result, operation.binary a b = .ok (.int result) → (flushAll m₂.streams).1 = .ok () →
        m.Yields (.app (.app (.builtin operation tag) l) r) result m₂.streams) ∧
      ∀ cause, operation.binary a b = .error cause → m.Stops (.app (.app (.builtin operation tag) l) r) cause := by
  have strict : operation ≠ .abort := by
    rintro rfl
    cases two
  obtain ⟨last, reaches, never', focus, top, streams⟩ := operands_evaluated tag used never two left right
  obtain ⟨stats, traced, ticked⟩ := last.tick_eq
  let ready := { last with stats, traced }
  have first : ready.spine.top? = some (.force operation tag [a] [] .empty) := by
    rw [show ready.spine = last.spine from rfl, Spine.top?, top, List.head?_cons]
  have settled : last.step = ready.settle := by
    rw [step_of_never never', ticked, State.reduce_of_force (m := ready) focus first]
  refine ⟨fun result answer flushes => ?_, fun cause answer => ?_⟩
  · let final := { ready with spine := ready.spine.pop, backtrace := .empty, term := .int result, locals := [] }
    have step : last.step = .running final := by
      rw [settled, settle_of_last (m := ready) focus strict first, List.singleton_append, primitive_pair _ two, answer]
    have bare : final.tick.state.frames = [] := by
      rw [tick_state]
      exact List.map_eq_nil_iff.2 (Spine.pop_frames_of_cons top)
    have value : final.tick.state.code = .int result := by
      rw [tick_state]
      rfl
    have ends : ∀ fuel, steps (fuel + 1) final = (.value ⟨.int result, final.tick.locals⟩, final.tick) := by
      intro fuel
      rw [steps, step_of_never (m := final) never', State.reduce_of_end bare (value ▸ trivial),
        show final.tick.term = .int result from Term.int_of_code value]
    obtain ⟨enough, same⟩ := (reaches.trans (.head step (.refl final))).steps_of_last ends
    have kept : final.tick.streams = m₂.streams := (tick_streams _).trans streams
    exact kept ▸ yields_of_steps (kept ▸ flushes) same
  · let final := { ready with spine := ready.spine.pop, backtrace := .empty }
    have step : last.step = final.fail cause (some tag) := by
      rw [settled, settle_of_last (m := ready) focus strict first, List.singleton_append, primitive_pair _ two, answer]
    have ends : ∀ fuel, steps (fuel + 1) last = (.fault (final.faultAt cause (some tag)), final) := by
      intro fuel
      rw [steps, step, fail]
    obtain ⟨enough, same⟩ := reaches.steps_of_last ends
    exact stops_of_steps same

/-- **Arithmetic is exact.** An arithmetic operation on two terms that come to integers, the second one behind the
first, divides by zero, or has the exact result if that fits, or overflows if it does not; but the remainder of the
least integer by -1 is refused, too. -/
theorem run_arithmetic (used : m.Used) (never : m.interrupt = .never) (operation : Builtin) (tag : Tag)
    (arithmetic : operation ∈ Builtin.arithmetic) (fits : fitsInt a = true) (left : m.Evaluates l a m₁)
    (right : m₁.Evaluates r b m₂) (flushes : (flushAll m₂.streams).1 = .ok ()) :
    let program := Term.app (.app (.builtin operation tag) l) r
    (operation = .div ∧ b = 0 → m.Stops program .divideByZero) ∧
      (operation = .mod ∧ b = 0 → m.Stops program .moduloByZero) ∧
      (¬ (operation = .div ∧ b = 0) ∧ ¬ (operation = .mod ∧ b = 0) →
        ∃ exact, operation.unbounded? a b = some exact ∧
          (fitsInt exact = true ∧ ¬ operation.Refuses a b → m.Yields program exact m₂.streams) ∧
          (fitsInt exact ≠ true ∨ operation.Refuses a b → m.Stops program (.overflow operation))) := by
  intro program
  have two : operation.arity = 2 := by
    simp only [Builtin.arithmetic, List.mem_cons, List.not_mem_nil, or_false] at arithmetic
    rcases arithmetic with rfl | rfl | rfl | rfl | rfl <;> rfl
  obtain ⟨yields, stops⟩ := run_of_operands tag used never two left right
  refine ⟨?_, ?_, fun divisor => ?_⟩
  · rintro ⟨rfl, rfl⟩
    exact stops _ rfl
  · rintro ⟨rfl, rfl⟩
    exact stops _ rfl
  · obtain ⟨exact, known⟩ := Builtin.exists_exact arithmetic divisor
    obtain ⟨-, inside, outside⟩ := Builtin.binary_of_exact fits known
    exact ⟨exact, known, fun accepted => yields _ (inside accepted.1 accepted.2) flushes,
      fun refused => stops _ (outside refused)⟩

/-- `(2 * 3) % 4` -/
theorem run_arithmetic_product :
    let m := start #[] .idle .never ⟨0, false, true⟩
    let product := Term.app (.app (.builtin .mul (.synthetic "*")) (.int 2)) (.int 3)
    let m₁ := (steps 20 (m.load product)).2
    let m₂ := (steps 20 (m₁.load (.int 4))).2
    m.Used ∧ m.interrupt = .never ∧ Builtin.mod ∈ Builtin.arithmetic ∧ fitsInt 6 = true ∧ m.Evaluates product 6 m₁ ∧
      m₁.Evaluates (.int 4) 4 m₂ ∧ (flushAll m₂.streams).1 = .ok () ∧
      m.Yields (.app (.app (.builtin .mod (.synthetic "%")) product) (.int 4)) 2 m₂.streams := by
  intro m product m₁ m₂
  have used : m.Used := .start ..
  have arithmetic : Builtin.mod ∈ Builtin.arithmetic := by decide
  have fits : fitsInt 6 = true := by decide
  have left : m.Evaluates product 6 m₁ := evaluates_of_int (by decide +kernel)
  have right : m₁.Evaluates (.int 4) 4 m₂ := evaluates_of_int (by decide +kernel)
  have flushes : (flushAll m₂.streams).1 = .ok () := rfl
  have outcome := run_arithmetic used rfl .mod (.synthetic "%") arithmetic fits left right flushes
  obtain ⟨exact, known, yields, -⟩ := outcome.2.2 (by decide)
  cases known
  exact ⟨used, rfl, arithmetic, fits, left, right, flushes, yields ⟨by decide, by simp [Builtin.Refuses]⟩⟩

/-- `(0 - 9223372036854775807 - 1) % (0 - 1)`: the remainder 0 fits, but is refused. -/
theorem run_refuses_remainder :
    let minus (l r : Term) := Term.app (.app (.builtin .sub (.synthetic "-")) l) r
    let least := minus (minus (.int 0) (.int maxInt)) (.int 1)
    let program := Term.app (.app (.builtin .mod (.synthetic "%")) least) (minus (.int 0) (.int 1))
    let m := start #[] .idle .never ⟨0, false, true⟩
    let m₁ := (steps 30 (m.load least)).2
    let m₂ := (steps 30 (m₁.load (minus (.int 0) (.int 1)))).2
    m.Evaluates least minInt m₁ ∧ m₁.Evaluates (minus (.int 0) (.int 1)) (-1) m₂ ∧
      Builtin.unbounded? .mod minInt (-1) = some 0 ∧ fitsInt 0 = true ∧
      cause? (m.run 50 program).1 = some (.overflow .mod) := by
  intro minus least program m m₁ m₂
  have left : m.Evaluates least minInt m₁ := evaluates_of_int (by decide +kernel)
  have right : m₁.Evaluates (minus (.int 0) (.int 1)) (-1) m₂ := evaluates_of_int (by decide +kernel)
  have refused : cause? (m.run 50 program).1 = some (.overflow .mod) := by decide +kernel
  exact ⟨left, right, by decide, by decide, refused⟩

end Machine

end MixfixLambda
