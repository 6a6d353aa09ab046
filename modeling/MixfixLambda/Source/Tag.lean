import MixfixLambda.Source.Span
import MixfixLambda.Text.Numeric

/-!
# Tags

A tag is the text of a lexeme with the place it was read from. Trees, terms, thunks and diagnostics
all carry tags, so that a fault deep in a run can still point into the source.
-/
namespace MixfixLambda

/-- Which source the span of a tag points into. -/
inductive Origin where
  | module | prelude
  /-- Made up by the binder or by a caller: there is no place to point to. -/
  | synthetic
  deriving DecidableEq, Repr, Inhabited

/-- The text of a lexeme, its span, and the source of that span. -/
structure Tag where
  text : String
  span : Span
  origin : Origin
  deriving DecidableEq, Repr, Inhabited

/-- Whether a text is an operator rather than a name. The first character decides: a letter, a number,
`_`, a quote, or the space that starts hidden names makes a name. The empty text is a name. -/
def isSymbolic (text : String) : Bool :=
  match text.toList with
  | [] => false
  | c :: _ => !(Text.isAlphanumeric c || c == '_' || c == '\x27' || c == ' ')

namespace Tag

/-- A tag without a place in any source. -/
def synthetic (text : String) : Tag :=
  ⟨text, Span.origin, .synthetic⟩

/-- Tags say the same when their texts agree, wherever they stand. -/
def SameText (a b : Tag) : Bool :=
  a.text == b.text

/-- The name as it is written where a value is expected: operators stand in parentheses. -/
def asValue (t : Tag) : String :=
  if isSymbolic t.text then "(" ++ t.text ++ ")" else t.text

end Tag

end MixfixLambda
