import MixfixLambda.Source.Tag

/-!
# Builtin operations

The operations on integers and streams that the machine performs itself.
-/
namespace MixfixLambda

inductive Builtin where
  | add | sub | mul | div | mod | eq | ne | lt | le | gt | ge | put | get | abort
  deriving DecidableEq, Repr, Inhabited

namespace Builtin

def all : List Builtin :=
  [.add, .sub, .mul, .div, .mod, .eq, .ne, .lt, .le, .gt, .ge, .put, .get, .abort]

def name : Builtin → String
  | .add => "+"
  | .sub => "-"
  | .mul => "*"
  | .div => "/"
  | .mod => "%"
  | .eq => "=="
  | .ne => "!="
  | .lt => "<"
  | .le => "<="
  | .gt => ">"
  | .ge => ">="
  | .put => "put"
  | .get => "get"
  | .abort => "abort"

def ofName? (name : String) : Option Builtin :=
  all.find? (·.name == name)

/-- Number of arguments. -/
def arity : Builtin → Nat
  | .put | .get | .abort => 1
  | _ => 2

/-- Whether the arguments are evaluated to integers first. Only `abort` takes its argument as it is. -/
def isStrict : Builtin → Bool
  | .abort => false
  | _ => true

/-- The name as a value. -/
def render (b : Builtin) : String :=
  if isSymbolic b.name then "(" ++ b.name ++ ")" else b.name

theorem mem_all (b : Builtin) : b ∈ all := by
  cases b <;> decide

theorem arity_pos (b : Builtin) : 0 < b.arity := by
  cases b <;> decide

theorem ofName?_name (b : Builtin) : ofName? b.name = some b := by
  cases b <;> decide

end Builtin

end MixfixLambda
