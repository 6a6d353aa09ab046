/-!
# Computations that succeed

What the success of a computation says of its first part, and how one that has been evaluated is known to succeed.
-/
namespace MixfixLambda

variable {ε α β : Type}

theorem bind_ok {x : Except ε α} {f : α → Except ε β} {b : β} (ok : (x >>= f) = .ok b) :
    ∃ a, x = .ok a ∧ f a = .ok b := by
  cases x with
  | error e => cases ok
  | ok a => exact ⟨a, rfl, ok⟩

theorem exists_ok {x : Except ε α} (succeeds : x.toOption.isSome = true) : ∃ a, x = .ok a := by
  cases x with
  | error e => cases succeeds
  | ok a => exact ⟨a, rfl⟩

/-- A computation succeeds if its result passes a test. -/
theorem exists_ok_of_any {x : Except ε α} {test : α → Bool} (passes : x.toOption.any test = true) :
    ∃ a, x = .ok a ∧ test a = true := by
  cases x with
  | error e => cases passes
  | ok a => exact ⟨a, rfl, passes⟩

end MixfixLambda
