import MixfixLambda.Term.Basic

/-!
# Printed terms

Abstractions in a row share one arrow and applications in a row one pair of parentheses, so what is
printed of a term depends on the node above it.
-/
namespace MixfixLambda

/-- Where a term stands when it is printed. -/
inductive Place where
  /-- On its own. -/
  | alone
  /-- In front of the arguments it is applied to. -/
  | head
  /-- Behind the variables it is abstracted over, before the arrow. -/
  | body
  deriving DecidableEq, Repr, Inhabited

namespace Place

/-- A term that needs no parentheses. -/
def leaf : Place → String → String
  | .alone, text | .head, text => text
  | .body, text => " -> " ++ text ++ ")"

/-- An application, given as the text of its head and of its arguments. -/
def application : Place → String → String
  | .alone, text => "(" ++ text ++ ")"
  | .head, text => text
  | .body, text => " -> (" ++ text ++ "))"

/-- An abstraction, given as its variable and the text behind it. -/
def abstraction : Place → String → String → String
  | .body, bound, rest => " " ++ bound ++ rest
  | _, bound, rest => "(\\" ++ bound ++ rest

end Place

namespace Term

def renderAt (place : Place) : Term → String
  | .int value => place.leaf (toString value)
  | .builtin operation _ => place.leaf operation.render
  | .var _ tag | .global _ tag => place.leaf tag.asValue
  | .lam tag body => place.abstraction tag.asValue (body.renderAt .body)
  | .app left right => place.application (left.renderAt .head ++ " " ++ right.renderAt .alone)

def render (t : Term) : String :=
  t.renderAt .alone

end Term

end MixfixLambda
