import MixfixLambda.Syntax.Rule

/-!
# The scoped table of rules

Rules are registered in the innermost open scope and vanish with it. The registry is the list of all
registrations, newest first, each with the number of its scope: since scopes close in the reverse
order of their opening, the registrations of the innermost scope are always a first part of the list,
and the first registration of a symbol is its innermost one.
-/
namespace MixfixLambda

/-- A rule and the scope it belongs to; the base scope has number zero. -/
structure Registration where
  scope : Nat
  rule : Rule
  deriving DecidableEq, Repr

structure Registry where
  /-- All registrations, newest first. -/
  entries : List Registration
  /-- The number of the innermost scope. -/
  scope : Nat
  deriving DecidableEq, Repr

namespace Registry

/-- No rules, and only the base scope. -/
def empty : Registry :=
  ⟨[], 0⟩

/-- Number of open scopes. -/
def depth (r : Registry) : Nat :=
  r.scope + 1

def find? (r : Registry) (symbol : String) : Option Registration :=
  r.entries.find? (·.rule.symbol == symbol)

/-- The innermost rule of a symbol, or the operand rule. -/
def lookup (r : Registry) (symbol : String) : Rule :=
  match r.find? symbol with
  | some entry => entry.rule
  | none => Rule.operand symbol

/-- Registers a rule in the innermost scope, unless its symbol has a rule there already. -/
def register (r : Registry) (rule : Rule) : Option Registry :=
  if (r.find? rule.symbol).any (·.scope == r.scope) then none
  else some { r with entries := ⟨r.scope, rule⟩ :: r.entries }

def pushScope (r : Registry) : Registry :=
  { r with scope := r.scope + 1 }

/-- Closes the innermost scope. The base scope stays open. -/
def popScope (r : Registry) : Registry :=
  if r.scope = 0 then r
  else ⟨r.entries.dropWhile (·.scope == r.scope), r.scope - 1⟩

/-- Registers several rules in turn, leaving out those that are refused. -/
def registerAll (r : Registry) (rules : List Rule) : Registry :=
  rules.foldl (fun r rule => (r.register rule).getD r) r

end Registry

end MixfixLambda
