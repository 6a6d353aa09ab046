import MixfixLambda.Machine.Step
import MixfixLambda.Term.Printer

/-!
# Printed values

A value is printed like a term, but variables that stand for thunks are read back: a thunk with a value
is printed as that value, up to a limit of nesting, and one without as `<thunk>`.
-/
namespace MixfixLambda.Readback

/-- How many values are printed inside each other. -/
def limit : Nat :=
  16

/-- Prints a term under `bound` binders of its own. `value` prints a closure that has a value; where
there is none the variable is printed. -/
def renderAt (heap : Heap) (value : Closure → Option String) (locals : Env) (bound : Nat)
    (place : Place) : Term → String
  | .int n => place.leaf (toString n)
  | .builtin operation _ => place.leaf operation.render
  | .global _ tag => place.leaf tag.asValue
  | .var depth tag =>
    if depth < bound then place.leaf tag.asValue
    else
      match (locals[depth - bound]?).bind (heap[·]?) with
      | none => place.leaf tag.asValue
      | some closure =>
        match closure.state with
        | .done => place.leaf ((value closure).getD tag.asValue)
        | .pending | .running => place.leaf "<thunk>"
  | .lam tag body =>
    place.abstraction tag.asValue (renderAt heap value locals (bound + 1) .body body)
  | .app left right =>
    place.application (renderAt heap value locals bound .head left ++ " "
      ++ renderAt heap value locals bound .alone right)

/-- Prints a term whose free variables may still be replaced by values `nesting` times. -/
def render (heap : Heap) : Nat → Env → Term → String
  | 0, locals, term => renderAt heap (fun _ => none) locals 0 .alone term
  | nesting + 1, locals, term =>
    renderAt heap (fun c => some (render heap nesting c.locals c.term)) locals 0 .alone term

end MixfixLambda.Readback

namespace MixfixLambda

/-- Prints a value. -/
def Value.render (heap : Heap) (v : Value) : String :=
  Readback.render heap Readback.limit v.locals v.term

end MixfixLambda
