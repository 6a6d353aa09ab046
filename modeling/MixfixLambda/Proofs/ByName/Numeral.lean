import MixfixLambda.Proofs.ByName.Reduction

/-!
# Two ways to unfold numerals

The machine applies a numeral by going over to `succ` applied to the numeral before it, where the function
that the numeral stands for is reached one reduction later. Both ways lead to the same integers.
-/
namespace MixfixLambda.ByName

/-- The numeral `n` as the machine unfolds it. -/
def iterated (n : Int) : Term :=
  if n > 0 then .app Machine.succ (.int (n - 1)) else Machine.zero

variable {globals : Array Global} {t u : Term}

theorem step_iterated {n : Int} (positive : n > 0) :
    step iterated globals (iterated n) = some (church n) := by
  rw [iterated, church, if_pos positive, if_pos positive]
  rfl

/-- Whether a term is reduced does not depend on what numerals become. -/
theorem step_isSome (numeral numeral' : Int → Term) (globals : Array Global) (t : Term) :
    (step numeral globals t).isSome = (step numeral' globals t).isSome := by
  fun_induction step numeral globals t with
  | case1 => rfl
  | case2 operation tag first second two ihf ihs =>
    rw [step_operation two]
    unfold operate
    split
    · split
      · rfl
      · simp only [Option.isSome_map, ihs]
    · simp only [Option.isSome_map, ihf]
  | case3 operation tag first second other => rw [step, if_neg other]
  | case4 left right plain left' first ih =>
    rw [step_app plain]
    rw [first] at ih
    obtain ⟨other, same⟩ := Option.isSome_iff_exists.mp ih.symm
    rw [same]
    rfl
  | case5 left right plain stuck ih =>
    rw [step_app plain]
    rw [stuck] at ih
    have none : step numeral' globals left = none := by
      rw [← Option.not_isSome_iff_eq_none, ← ih]
      exact Bool.false_ne_true
    rw [none]
    unfold contract
    cases left <;> rfl
  | case6 t notGlobal notOperation notApp =>
    cases t with
    | global index tag => exact absurd rfl (notGlobal index tag)
    | app left right => exact absurd rfl (notApp left right)
    | _ => rfl

/-- Every reduction of a term as it is written is one or two of the machine's. -/
theorem takes_of_step_church (reduces : step church globals t = some u) :
    ∃ count, Takes iterated globals (count + 1) t u := by
  fun_induction step church globals t generalizing u with
  | case1 index tag => exact ⟨0, .single reduces⟩
  | case2 operation tag first second two ihf ihs =>
    unfold operate at reduces
    split at reduces
    · split at reduces
      · next a b => exact ⟨0, .single ((step_compute two).trans reduces)⟩
      · obtain ⟨second', next, rfl⟩ := Option.map_eq_some_iff.mp reduces
        obtain ⟨count, takes⟩ := ihs next
        exact ⟨count, takes.congr fun _ _ inner => step_second two inner⟩
    · obtain ⟨first', next, rfl⟩ := Option.map_eq_some_iff.mp reduces
      obtain ⟨count, takes⟩ := ihf next
      exact ⟨count, takes.congr fun _ _ inner => step_first two inner second⟩
  | case3 operation tag first second other => cases reduces
  | case4 left right plain left' first ih =>
    cases reduces
    obtain ⟨count, takes⟩ := ih first
    exact ⟨count, takes.congr fun _ _ inner => step_left inner right⟩
  | case5 left right plain stuck ih =>
    unfold contract at reduces
    split at reduces
    · cases reduces
      exact ⟨0, .single (step_lam _ _)⟩
    · next n =>
      cases reduces
      have unfolds : Takes iterated globals 1 (.app (.int n) right) (.app (iterated n) right) :=
        .single (step_numeral n right)
      by_cases positive : n > 0
      · exact ⟨1, unfolds.trans (.single (step_left (step_iterated positive) right))⟩
      · have same : church n = iterated n := by
          rw [church, iterated, if_neg positive, if_neg positive]
          rfl
        rw [same]
        exact ⟨0, unfolds⟩
    · cases reduces
  | case6 t notGlobal notOperation notApp => cases reduces

theorem takes_of_takes_church {count : Nat} (takes : Takes church globals count t u) :
    ∃ count, Takes iterated globals count t u := by
  induction takes with
  | refl t => exact ⟨0, .refl t⟩
  | head first _ ih =>
    obtain ⟨before, first⟩ := takes_of_step_church first
    obtain ⟨after, rest⟩ := ih
    exact ⟨_, first.trans rest⟩

theorem takes_church_of_takes {count : Nat} (takes : Takes iterated globals count t u)
    (normal : step iterated globals u = none) : ∃ count, Takes church globals count t u := by
  induction count using Nat.strongRecOn generalizing t with
  | ind count ih =>
    cases first : step church globals t with
    | none =>
      have stuck : step iterated globals t = none := by
        rw [← Option.not_isSome_iff_eq_none, step_isSome iterated church, first]
        nofun
      cases takes with
      | refl => exact ⟨0, .refl _⟩
      | head second rest => rw [stuck] at second; cases second
    | some t' =>
      obtain ⟨used, begins⟩ := takes_of_step_church first
      obtain ⟨fewer, rest⟩ := takes.within normal begins
      obtain ⟨further, rest⟩ := ih _ (by omega) rest
      exact ⟨_, .head first rest⟩

/-- The machine's numerals and the written ones lead to the same integers. -/
theorem exists_takes_int_iff {n : Int} :
    (∃ count, Takes church globals count t (.int n)) ↔
      ∃ count, Takes iterated globals count t (.int n) := by
  constructor
  · rintro ⟨count, takes⟩
    exact takes_of_takes_church takes
  · rintro ⟨count, takes⟩
    exact takes_church_of_takes takes rfl

end MixfixLambda.ByName
