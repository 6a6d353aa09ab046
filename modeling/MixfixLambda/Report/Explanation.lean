/-!
# Explanations

What a diagnostic says about an error beside its title.
-/
namespace MixfixLambda

/-- A headline, and further lines that help. -/
structure Explanation where
  headline : String
  notes : List String
  deriving DecidableEq, Repr, Inhabited

end MixfixLambda
