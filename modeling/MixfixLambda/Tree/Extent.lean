import MixfixLambda.Tree.Basic

/-!
# Where a tree stands

The span of an infix operator goes from the leftmost operand of its chain to the rightmost one. Only the
ends of the chain are looked at, so that the span of a long chain is found along its edges.
-/
namespace MixfixLambda

/-- The least span that covers all of them, or the origin if there are none. -/
def Span.mergeAll : List Span → Span
  | [] => Span.origin
  | s :: rest => rest.foldl Span.merge s

/-- Which part of a chain of infix operators is asked for. A tree that is no such chain is its own first
and last operand. -/
inductive ChainPart where
  | whole | first | last
  deriving DecidableEq, Repr

namespace Tree

mutual

/-- The span of a part of a tree. -/
def spanOf (part : ChainPart) : Tree → Span
  | .int _ s | .str _ s | .char _ s | .placeholder s | .apply _ _ s | .sequence _ s | .comma _ s
  | .unit s | .tuple _ s | .list _ s | .data _ s | .sectionOf _ s => s
  | .declaration d => d.span
  | .name tag => tag.span
  | .infixOp operator left right =>
    match part with
    | .whole => (operator.span.merge (left.spanOf .first)).merge (right.spanOf .last)
    | .first => left.spanOf .first
    | .last => right.spanOf .last
  | .prefixOp operator operand | .postfixOp operator operand =>
    operator.span.merge (operand.spanOf .whole)
  | .mixfix parts operands => Span.mergeAll (parts.map Tag.span ++ spans operands)
  | .bracket opening closing _ => opening.span.merge closing.span
  | .define _ pattern body | .lambda _ pattern body =>
    (pattern.spanOf .whole).merge (body.spanOf .whole)
  | .asPattern _ bound pattern => (bound.spanOf .whole).merge (pattern.spanOf .whole)

/-- The span of each tree. -/
def spans : List Tree → List Span
  | [] => []
  | t :: rest => t.spanOf .whole :: spans rest

end

/-- The span of a tree. -/
def span (t : Tree) : Span :=
  t.spanOf .whole

theorem spans_eq_map (ts : List Tree) : spans ts = ts.map span := by
  induction ts with
  | nil => rfl
  | cons t ts ih => simp [spans, span, ih]

end Tree

end MixfixLambda
