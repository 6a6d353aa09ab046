import MixfixLambda.Machine.Backtrace
import MixfixLambda.Machine.Stream
import MixfixLambda.Parse.Error
import MixfixLambda.Term.Builtin

/-!
# Faults

Why a run stops without a value, and the words for it.
-/
namespace MixfixLambda

/-- A state of the machine that no bound program reaches. -/
inductive InternalFault where
  | unknownGlobal (name : String)
  | unboundLocal (name : String)
  | leftArgument
  | lostUpdate
  | wrongCount (operation : Builtin) (count : Nat)
  deriving DecidableEq, Repr

def InternalFault.message : InternalFault → String
  | .unknownGlobal name => "unknown global " ++ quoted name
  | .unboundLocal name => "unbound local " ++ quoted name
  | .leftArgument => "value left an argument on the spine"
  | .lostUpdate => "partial application lost its update"
  | .wrongCount operation count =>
    quoted operation.name ++ " applied to " ++ toString count ++ " values"

inductive FaultCause where
  /-- An operation got something that is no integer. -/
  | typeMismatch (operation : Builtin)
  | overflow (operation : Builtin)
  | divideByZero
  | moduloByZero
  | byteRange (value : Int)
  /-- The result is an operation that still waits for arguments. -/
  | missingArgument (operation : Builtin)
  | abort
  /-- A value is needed to compute itself. -/
  | loop
  | interrupted
  | stream (error : StreamError)
  | internal (fault : InternalFault)
  deriving DecidableEq, Repr

/-- What happened, where, and the references to globals that led there, newest first. -/
structure Fault where
  cause : FaultCause
  span : Option Span
  backtrace : List String
  deriving DecidableEq, Repr

namespace FaultCause

def message : FaultCause → String
  | .typeMismatch operation => quoted operation.name ++ " expected an integer"
  | .overflow operation => "integer overflow in " ++ quoted operation.name
  | .divideByZero => "division by zero"
  | .moduloByZero => "modulo by zero"
  | .byteRange value => "byte " ++ toString value ++ " is out of range"
  | .missingArgument operation => quoted operation.name ++ " is missing an argument"
  | .abort => "aborted"
  | .loop => "infinite loop"
  | .interrupted => "interrupted"
  | .stream error => "IO operation failed: " ++ error.message
  | .internal fault => "internal error: " ++ fault.message

def explanation : FaultCause → Explanation
  | .typeMismatch operation =>
    ⟨"Type mismatch", [quoted operation.name ++ " only works on integers."]⟩
  | .overflow operation =>
    ⟨"Integer overflow", ["The result of " ++ quoted operation.name ++ " does not fit in 64 bits."]⟩
  | .divideByZero => ⟨"Division by zero", []⟩
  | .moduloByZero => ⟨"Modulo by zero", []⟩
  | .byteRange value =>
    ⟨"Byte out of range", ["`put` writes bytes from 0 to 255, got " ++ toString value ++ "."]⟩
  | .missingArgument operation =>
    ⟨"Missing argument", [quoted operation.name ++ " was not given all of its arguments."]⟩
  | .abort => ⟨"Aborted", []⟩
  | .loop => ⟨"Infinite loop", ["A value depends on itself."]⟩
  | .interrupted => ⟨"Interrupted", []⟩
  | .stream error => ⟨"IO error", [error.message]⟩
  | .internal fault => ⟨"Internal error", [fault.message]⟩

end FaultCause

end MixfixLambda
