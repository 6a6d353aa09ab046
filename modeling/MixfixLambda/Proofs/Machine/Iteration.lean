import Mathlib.Tactic.Ring
import MixfixLambda.Proofs.Machine.Scene

/-!
# Numerals iterate

A positive numeral that is applied becomes the successor of a new numeral, one less than it, so that its layers
are unrolled one by one. With `\x -> x + k` for the function every layer leaves an addition that waits for the
layer below, and the additions are done innermost first, once the last layer has given the numeral at the bottom.
-/
namespace MixfixLambda

/-- `\x -> x + k` -/
def Code.adding (k : Int) : Code :=
  .fn (.app (.app (.builtin .add) (.var 0)) (.int k))

/-- A sum that leaves the range of the integers does not come back to it. -/
theorem not_fitsInt_succ {m k : Int} {count : Nat} (fits : fitsInt m = true)
    (outside : fitsInt (m + count * k) ≠ true) : fitsInt (m + (count + 1 : Nat) * k) ≠ true := by
  simp only [fitsInt_iff, minInt, maxInt, ne_eq] at fits outside ⊢
  have sum : ((count + 1 : Nat) : Int) * k = count * k + k := by
    push_cast
    ring
  have sign : 0 ≤ k ∧ 0 ≤ count * k ∨ k < 0 ∧ count * k ≤ 0 := by
    by_cases negative : k < 0
    · exact .inr ⟨negative, Int.mul_nonpos_of_nonneg_of_nonpos (by omega) (by omega)⟩
    · exact .inl ⟨by omega, Int.mul_nonneg (by omega) (by omega)⟩
  omega

namespace State

variable {globals : Array Code} {Q : State → Prop} {constants : Array (Option Nat)} {heap : Memory}
  {streams : Streams} {frames : List Wait} {env : Env} {function bottom : Nat} {m k : Int}

/-- One layer is unrolled: an addition waits for the layers below. -/
theorem Leads.layer {count : Nat} {around : Env}
    (adds : heap[function]? = some ⟨.adding k, around, .done⟩)
    (leads : ∀ (heap' : Memory) thunk second env', heap.Within heap' → heap.size ≤ thunk → heap'.Running thunk →
      heap'.Known second k → Leads globals Q ⟨constants, heap', streams,
        .arg function :: .arg bottom :: .update thunk :: .force .add [] [second] :: frames, .int count, env'⟩) :
    Leads globals Q ⟨constants, heap, streams, .arg function :: .arg bottom :: frames, .int (count + 1 : Nat), env⟩ := by
  refine .iterate (by omega) (.bind (.bind (.bind (.delayApp ?_))))
  -- The function takes the thunk of the layers below, which the addition needs at once.
  refine .lookup rfl (.value (show _ = some (Slot.mk (.adding k) around .done) by grind) (.bind (.delayInt ?_)))
  refine .share rfl (.binary rfl (.evaluate (Memory.push_kept (Memory.push_new rfl)) ?_))
  have previous : ((count + 1 : Nat) : Int) - 1 = count := by omega
  rw [previous]
  refine .share rfl (.share rfl (.lookup rfl (.value (show _ = some (Slot.mk (.int count) [] .done) by grind)
    (leads _ _ _ _ ?_ ?_ ?_ ?_))))
  · intro i slot found
    grind
  · grind
  · exact ⟨⟨.app (.app (.var 2) (.var 1)) (.var 0), [bottom, function, heap.size], .running⟩, by
      rw [Memory.getElem?_mark, if_pos rfl, Memory.push_kept (Memory.push_new rfl)]
      rfl, rfl⟩
  · exact ⟨[], by grind⟩

/-- A layer is done: its addition is, too, if the sum fits. -/
theorem Leads.return {sum : Int} {thunk second : Nat} (running : heap.Running thunk) (operand : heap.Known second k)
    (leads : fitsInt (sum + k) = true → ∀ (heap' : Memory) env',
      (∀ (i : Nat) (slot : Slot), heap[i]? = some slot → i ≠ thunk → heap'[i]? = some slot) →
        Leads globals Q ⟨constants, heap', streams, frames, .int (sum + k), env'⟩)
    (overflows : fitsInt (sum + k) ≠ true → ∀ s, s.Faults globals (.overflow .add) → Q s) :
    Leads globals Q ⟨constants, heap, streams, .update thunk :: .force .add [] [second] :: frames, .int sum, env⟩ := by
  obtain ⟨env', known⟩ := operand
  obtain ⟨slot, found, state⟩ := running
  refine .update trivial (.next (by decide) (.value (show _ = some (Slot.mk (.int k) env' .done) from ?_) ?_))
  · rw [Memory.getElem?_fill, if_neg (by grind), known]
  · rw [List.nil_append]
    by_cases fits : fitsInt (sum + k) = true
    · have answer : Builtin.binary .add sum k = .ok (.int (sum + k)) := by
        rw [Builtin.binary, Builtin.checked, if_pos fits]
      refine .computeInt rfl answer (leads fits _ _ fun i slot found other => ?_)
      rw [Memory.getElem?_fill, if_neg (Ne.symm other), found]
    · have answer : Builtin.binary .add sum k = .error (.overflow .add) := by
        rw [Builtin.binary, Builtin.checked, if_neg fits]
      exact .here (overflows fits _ (.compute rfl answer))

/-- The layers of a numeral are unrolled and done. -/
theorem Leads.iterates {count : Nat} {around : Env} (fits : fitsInt m = true)
    (adds : heap[function]? = some ⟨.adding k, around, .done⟩) (starts : heap.Known bottom m)
    (leads : fitsInt (m + count * k) = true → ∀ heap' env', heap.Within heap' →
      Leads globals Q ⟨constants, heap', streams, frames, .int (m + count * k), env'⟩)
    (overflows : fitsInt (m + count * k) ≠ true → ∀ s, s.Faults globals (.overflow .add) → Q s) :
    Leads globals Q ⟨constants, heap, streams, .arg function :: .arg bottom :: frames, .int count, env⟩ := by
  induction count generalizing heap frames env with
  | zero =>
    obtain ⟨env', here⟩ := starts
    have same : m + (0 : Nat) * k = m := by simp
    rw [same] at leads
    exact .vanish (by decide) (.bind (.bind (.lookup rfl (.value here (leads fits _ _ fun _ _ found => found)))))
  | succ count ih =>
    have sum : m + count * k + k = m + (count + 1 : Nat) * k := by
      push_cast
      ring
    rw [← sum] at leads overflows
    refine .layer adds fun heap' thunk second env' within new running operand => ?_
    refine ih (within _ _ adds) (starts.within within) ?_ ?_
    · intro inside heap'' env'' within'
      obtain ⟨slot, found, state⟩ := running
      obtain ⟨env₂, known⟩ := operand
      refine .return ⟨slot, within' _ _ found, state⟩ ⟨env₂, within' _ _ known⟩ (fun inside' heap₃ env₃ kept => ?_) overflows
      refine leads inside' _ _ fun i slot old => kept _ _ (within' _ _ (within _ _ old)) ?_
      have before := (Array.getElem?_eq_some_iff.mp old).1
      omega
    · intro outside
      exact overflows (sum ▸ not_fitsInt_succ fits outside)

/-- The integer is the result, and nothing has happened to the streams. -/
structure Yields (streams : Streams) (value : Int) (s : State) : Prop where
  bare : s.frames = []
  code : s.code = .int value
  quiet : s.streams = streams

/-- A function and an integer are made arguments. -/
theorem Leads.applied {head f : Code} (complex : ¬ f.IsVar)
    (leads : Leads globals Q ⟨constants, #[⟨.int m, [], .done⟩, f.slot []], streams, [.arg 1, .arg 0], head, []⟩) :
    Leads globals Q ⟨constants, #[], streams, [], .app (.app head f) (.int m), []⟩ :=
  .delayInt (.delay complex leads)

end State

/-- `\x -> x + k` -/
def Term.adding (k : Int) (binder plus occurrence : Tag) : Term :=
  .lam binder (.app (.app (.builtin .add plus) (.var 0 occurrence)) (.int k))

/-- A numeral is applied to a function and another numeral. -/
def Term.iterate (n : Int) (f : Term) (m : Int) : Term :=
  .app (.app (.int n) f) (.int m)

namespace Machine

section Runs

variable {m : Machine} {t : Term}

theorem load_normal (never : m.interrupt = .never) : (m.load t).Normal (m.globals.map (·.term.code)) :=
  ⟨rfl, never, rfl⟩

theorem yields_of_leads {value : Int} {streams : Streams} (never : m.interrupt = .never)
    (flushes : (flushAll streams).1 = .ok ())
    (leads : State.Leads (m.globals.map (·.term.code)) (State.Yields streams value) (m.load t).state) :
    m.Yields t value streams := by
  obtain ⟨enough, after, ⟨-, code, quiet⟩, steps⟩ :=
    leads.finishes (load_normal never) fun s ended => ⟨ended.bare, ended.code ▸ trivial⟩
  have focus : after.term = .int value := Term.int_of_code code
  rw [focus] at steps
  have same : after.streams = streams := quiet
  subst same
  exact yields_of_steps flushes steps

theorem stops_of_leads {cause : FaultCause} (never : m.interrupt = .never)
    (leads : State.Leads (m.globals.map (·.term.code))
      (State.Faults (m.globals.map (·.term.code)) cause) (m.load t).state) : m.Stops t cause := by
  obtain ⟨enough, fault, after, same, steps⟩ := leads.faults (load_normal never)
  exact same ▸ stops_of_steps steps

end Runs

theorem start_load_state (globals : Array Global) (streams : Streams) (options : Options) (t : Term) :
    ((start globals streams .never options).load t).state =
      ⟨Array.replicate globals.size none, #[], streams, [], t.code, []⟩ := by
  simp [state, load, start, Spine.empty]

section Numerals

variable {n m k : Int} {globals : Array Global} {streams : Streams} {options : Options} {f : Term}
  {binder plus occurrence : Tag}

theorem iterate_leads {Q : State → Prop} (function : ¬ f.IsVar)
    (leads : State.Leads (globals.map (·.term.code)) Q ⟨Array.replicate globals.size none,
      #[⟨.int m, [], .done⟩, f.code.slot []], streams, [.arg 1, .arg 0], .int n, []⟩) :
    State.Leads (globals.map (·.term.code)) Q
      ((start globals streams .never options).load (.iterate n f m)).state := by
  rw [start_load_state]
  refine .applied ?_ leads
  cases f <;> first | exact id | exact absurd trivial function

/-- A numeral below one gives its second argument. -/
theorem iterate_yields_of_le (below : n ≤ 0) (function : ¬ f.IsVar) (flushes : (flushAll streams).1 = .ok ()) :
    (start globals streams .never options).Yields (.iterate n f m) m streams := by
  refine yields_of_leads rfl flushes (iterate_leads function (.vanish below (.bind (.bind ?_))))
  exact .lookup rfl (.value rfl (.here ⟨rfl, rfl, rfl⟩))

theorem iterate_adding_leads {Q : State → Prop} (positive : 0 < n) (fits : fitsInt m = true)
    (ends : fitsInt (m + n * k) = true → ∀ s : State, s.Yields streams (m + n * k) → Q s)
    (overflows : fitsInt (m + n * k) ≠ true → ∀ s, s.Faults (globals.map (·.term.code)) (.overflow .add) → Q s) :
    State.Leads (globals.map (·.term.code)) Q
      ((start globals streams .never options).load (.iterate n (.adding k binder plus occurrence) m)).state := by
  obtain ⟨count, rfl⟩ := Int.eq_ofNat_of_zero_le (Int.le_of_lt positive)
  have adds : #[Slot.mk (.int m) [] .done, ⟨.adding k, [], .done⟩][1]? = some ⟨.adding k, [], .done⟩ := rfl
  refine iterate_leads id (.iterates fits adds ⟨[], rfl⟩ (fun inside heap env _ => ?_) overflows)
  exact .here (ends inside _ ⟨rfl, rfl, rfl⟩)

end Numerals

/-- **Numerals iterate.** A numeral that is applied to `\x -> x + k` and to a numeral adds as often as it says, or
never if it is negative, and the run fails just where the sum does not fit. A numeral below one gives back its
second argument whatever the function is. -/
theorem run_iterate (n k m : Int) (globals : Array Global) (streams : Streams) (options : Options)
    (binder plus occurrence : Tag) (fits : fitsInt m = true) (flushes : (flushAll streams).1 = .ok ()) :
    let fresh := start globals streams .never options
    let total := m + max n 0 * k
    (fitsInt total = true → fresh.Yields (.iterate n (.adding k binder plus occurrence) m) total streams) ∧
      (fitsInt total ≠ true → fresh.Stops (.iterate n (.adding k binder plus occurrence) m) (.overflow .add)) ∧
      (n ≤ 0 → ∀ f : Term, ¬ f.IsVar → fresh.Yields (.iterate n f m) m streams) := by
  intro fresh total
  refine ⟨fun inside => ?_, fun outside => ?_, fun below f function => iterate_yields_of_le below function flushes⟩
  · by_cases positive : 0 < n
    · have most : max n 0 = n := by omega
      simp only [total, most] at inside ⊢
      exact yields_of_leads rfl flushes (iterate_adding_leads positive fits (fun _ _ ended => ended)
        fun outside => absurd inside outside)
    · have most : total = m := by simp [total, show max n 0 = 0 by omega]
      rw [most]
      exact iterate_yields_of_le (by omega) id flushes
  · by_cases positive : 0 < n
    · have most : max n 0 = n := by omega
      simp only [total, most] at outside
      exact stops_of_leads rfl (iterate_adding_leads positive fits (fun inside => absurd inside outside)
        fun _ _ fails => fails)
    · have most : total = m := by simp [total, show max n 0 = 0 by omega]
      exact absurd (most ▸ fits) outside

theorem run_iterate_three :
    fitsInt 5 = true ∧ (flushAll (.ofReader [])).1 = .ok () ∧
      (start #[] (.ofReader []) .never ⟨0, false, true⟩).Yields
        (.iterate 3 (.adding 2 (.synthetic "x") (.synthetic "+") (.synthetic "x")) 5) 11 (.ofReader []) := by
  have fits : fitsInt 5 = true := by decide
  have flushes : (flushAll (.ofReader [])).1 = .ok () := rfl
  have runs := run_iterate 3 2 5 #[] (.ofReader []) ⟨0, false, true⟩ (.synthetic "x") (.synthetic "+")
    (.synthetic "x") fits flushes
  exact ⟨fits, flushes, runs.1 (by decide)⟩

end Machine

end MixfixLambda
