import Mathlib.Logic.Function.Basic
import MixfixLambda.Proofs.Syntax.Registry

/-!
# Scopes as tables

The registry keeps one list of registrations for all scopes. Read scope by scope it is a stack of tables, each
from symbols to rules: a rule is entered in the innermost table unless its symbol is there already, looked up in
the innermost table that has its symbol, and lost when its table is dropped. The base table is never dropped.
Whatever is asked of a registry in whatever order, it answers as the tables do.
-/
namespace MixfixLambda

/-- The rules of one scope by their symbols. -/
abbrev Table := String → Option Rule

/-- The tables of the open scopes, innermost first. -/
abbrev Tables := List Table

namespace Tables

/-- One table without rules. -/
def empty : Tables :=
  [fun _ => none]

/-- One table with the rules of the default grammar. -/
def default : Tables :=
  [fun symbol => defaultRules.find? (·.symbol == symbol)]

/-- The rule of the innermost table that has the symbol, or the operand rule. -/
def lookup (t : Tables) (symbol : String) : Rule :=
  (t.findSome? (· symbol)).getD (Rule.operand symbol)

/-- Enters a rule in the innermost table, unless that has its symbol already. -/
def register (t : Tables) (rule : Rule) : Option Tables :=
  match t with
  | [] => none
  | inner :: outer =>
    if (inner rule.symbol).isSome then none
    else some (Function.update inner rule.symbol (some rule) :: outer)

def pushScope (t : Tables) : Tables :=
  (fun _ => none) :: t

/-- Drops the innermost table, unless it is the last one. -/
def popScope : Tables → Tables
  | _ :: next :: outer => next :: outer
  | t => t

end Tables

namespace Registry

/-- What can be asked of a registry. -/
inductive Operation where
  | register (rule : Rule)
  | pushScope
  | popScope
  | lookup (symbol : String)
  deriving DecidableEq, Repr

/-- What an operation answers. -/
inductive Answer where
  | done
  /-- The symbol has a rule in the innermost scope already. -/
  | refused
  | found (rule : Rule)
  deriving DecidableEq, Repr

/-- A rule that is refused changes nothing. -/
def perform (r : Registry) : Operation → Answer × Registry
  | .register rule =>
    match r.register rule with
    | some s => (.done, s)
    | none => (.refused, r)
  | .pushScope => (.done, r.pushScope)
  | .popScope => (.done, r.popScope)
  | .lookup symbol => (.found (r.lookup symbol), r)

/-- The answers to several operations in turn. -/
def answers (r : Registry) : List Operation → List Answer
  | [] => []
  | operation :: rest => (r.perform operation).1 :: (r.perform operation).2.answers rest

/-- The registry behind several operations. -/
def after (r : Registry) (operations : List Operation) : Registry :=
  operations.foldl (fun r operation => (r.perform operation).2) r

end Registry

namespace Tables

open Registry (Operation Answer)

/-- What the tables answer, and what becomes of them. -/
def perform (t : Tables) : Operation → Answer × Tables
  | .register rule =>
    match t.register rule with
    | some u => (.done, u)
    | none => (.refused, t)
  | .pushScope => (.done, t.pushScope)
  | .popScope => (.done, t.popScope)
  | .lookup symbol => (.found (t.lookup symbol), t)

def answers (t : Tables) : List Operation → List Answer
  | [] => []
  | operation :: rest => (t.perform operation).1 :: answers (t.perform operation).2 rest

def after (t : Tables) (operations : List Operation) : Tables :=
  operations.foldl (fun t operation => (t.perform operation).2) t

end Tables

namespace Registry

/-! ### The tables of a registry -/

/-- The table of one scope, from a list of registrations. -/
def tableOf (entries : List Registration) (scope : Nat) : Table :=
  fun symbol => (entries.find? fun e => e.scope == scope && e.rule.symbol == symbol).map (·.rule)

/-- The tables of a scope and of those around it. -/
def tablesFrom (entries : List Registration) : Nat → Tables
  | 0 => [tableOf entries 0]
  | scope + 1 => tableOf entries (scope + 1) :: tablesFrom entries scope

def tables (r : Registry) : Tables :=
  tablesFrom r.entries r.scope

section Entries

variable {entries rest : List Registration} {scope : Nat}

end Entries

/-! ### Each operation -/

section Operations

variable {r : Registry}

end Operations

/-! ### Whole runs -/

section Runs

variable {r : Registry}

theorem Built.perform (built : r.Built) (operation : Operation) : (r.perform operation).2.Built := by
  cases operation with
  | register rule =>
    rw [Registry.perform]
    cases registered : r.register rule with
    | some s => exact built.register registered
    | none => exact built
  | pushScope => exact built.pushScope
  | popScope => exact built.popScope
  | lookup symbol => exact built

theorem Built.after (built : r.Built) (operations : List Operation) : (r.after operations).Built := by
  induction operations generalizing r with
  | nil => exact built
  | cons operation rest ih => exact ih (built.perform operation)

/-- Operations of which every scope that is opened is closed again, and no other. -/
inductive Block where
  | nil
  | register (rule : Rule) (rest : Block)
  | lookup (symbol : String) (rest : Block)
  | scope (inner rest : Block)
  deriving Repr

def Block.operations : Block → List Operation
  | .nil => []
  | .register rule rest => .register rule :: rest.operations
  | .lookup symbol rest => .lookup symbol :: rest.operations
  | .scope inner rest => .pushScope :: (inner.operations ++ .popScope :: rest.operations)

end Runs

end Registry

end MixfixLambda
