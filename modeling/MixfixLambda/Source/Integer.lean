/-!
# Integers

The integers of the language are those of 64 bits, in two's complement. Arithmetic is exact: a result
out of range is an error and never wraps.
-/
namespace MixfixLambda

/-- The least integer that the language has. -/
def minInt : Int :=
  -9223372036854775808

/-- The greatest integer that the language has. -/
def maxInt : Int :=
  9223372036854775807

/-- Whether an integer fits into 64 bits. -/
def fitsInt (n : Int) : Bool :=
  minInt ≤ n && n ≤ maxInt

theorem fitsInt_iff {n : Int} : fitsInt n = true ↔ minInt ≤ n ∧ n ≤ maxInt := by
  simp [fitsInt]

end MixfixLambda
