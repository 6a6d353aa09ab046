import MixfixLambda.Machine.Backtrace
import MixfixLambda.Term.Basic

/-!
# Thunks

A thunk is a term with the thunks of its free variables. The heap is the table of all thunks; a thunk
is known by its position, and the heap only grows.
-/
namespace MixfixLambda

inductive ThunkState where
  /-- Not needed yet. -/
  | pending
  /-- Being evaluated: it must not be needed again before that ends. -/
  | running
  /-- A value. -/
  | done
  deriving DecidableEq, Repr, Inhabited

/-- The thunks of the variables in scope, innermost first. -/
abbrev Env := List Nat

structure Closure where
  term : Term
  locals : Env
  backtrace : Backtrace
  state : ThunkState
  deriving DecidableEq, Repr, Inhabited

/-- A new closure. A term that is a value needs no evaluation. -/
def Closure.of (term : Term) (locals : Env) (backtrace : Backtrace) : Closure :=
  ⟨term, locals, backtrace, if term.isValue then .done else .pending⟩

/-- The closure with the value of its term in place of the term. -/
def Closure.update (c : Closure) (term : Term) (locals : Env) : Closure :=
  { c with term, locals, state := .done }

abbrev Heap := Array Closure

end MixfixLambda
