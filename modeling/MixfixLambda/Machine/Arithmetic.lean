import MixfixLambda.Machine.Fault
import MixfixLambda.Source.Integer
import MixfixLambda.Term.Basic

/-!
# Operations on integers

The two-place operations on the values of their arguments. Results are exact; one that does not fit into
64 bits is a fault. Division goes toward zero, and the remainder has the sign of the dividend.
-/
namespace MixfixLambda.Builtin

def v (depth : Nat) (name : String) : Term :=
  .var depth (.synthetic name)

/-- `\t f -> t` or `\t f -> f` -/
def boolean (value : Bool) : Term :=
  .lams [.synthetic "t", .synthetic "f"] (if value then v 1 "t" else v 0 "f")

/-- The result of an operation, if it fits. -/
def checked (operation : Builtin) (result : Int) : Except FaultCause Term :=
  if fitsInt result then .ok (.int result) else .error (.overflow operation)

/-- A two-place operation on integers. A remainder is refused where the quotient does not fit. -/
def binary (operation : Builtin) (a b : Int) : Except FaultCause Term :=
  match operation with
  | .add => checked operation (a + b)
  | .sub => checked operation (a - b)
  | .mul => checked operation (a * b)
  | .div => if b = 0 then .error .divideByZero else checked operation (a.tdiv b)
  | .mod =>
    if b = 0 then .error .moduloByZero
    else if fitsInt (a.tdiv b) then .ok (.int (a.tmod b))
    else .error (.overflow operation)
  | .eq => .ok (boolean (a == b))
  | .ne => .ok (boolean (a != b))
  | .lt => .ok (boolean (a < b))
  | .le => .ok (boolean (a ≤ b))
  | .gt => .ok (boolean (a > b))
  | .ge => .ok (boolean (a ≥ b))
  | .put | .get | .abort => .error (.internal (.wrongCount operation 2))

end MixfixLambda.Builtin
