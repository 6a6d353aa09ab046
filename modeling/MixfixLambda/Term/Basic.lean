import MixfixLambda.Term.Builtin

/-!
# Terms

Lambda terms with integers, builtins and references to global definitions. A variable is the number of
binders between it and its own; its tag says how the source spells it.
-/
namespace MixfixLambda

inductive Term where
  | int (value : Int)
  | builtin (operation : Builtin) (tag : Tag)
  /-- Depth zero is the innermost binder. -/
  | var (depth : Nat) (tag : Tag)
  | global (index : Nat) (tag : Tag)
  | lam (tag : Tag) (body : Term)
  | app (left right : Term)
  deriving DecidableEq, Repr, Inhabited

namespace Term

/-- A term applied to several arguments, one after the other. -/
def applyAll (head : Term) (arguments : List Term) : Term :=
  arguments.foldl app head

/-- An abstraction over several variables, the first one outermost. -/
def lams (tags : List Tag) (body : Term) : Term :=
  tags.foldr lam body

/-- Number of nodes. -/
def size : Term → Nat
  | .int _ | .builtin .. | .var .. | .global .. => 1
  | .lam _ body => body.size + 1
  | .app left right => left.size + right.size + 1

/-- Whether the term is evaluated as it stands. -/
def isValue : Term → Bool
  | .int _ | .builtin .. | .lam .. => true
  | _ => false

/-- The kind of the outermost node in one line. -/
def describe : Term → String
  | .int value => "int " ++ toString value
  | .builtin operation _ => "builtin " ++ operation.name
  | .var depth tag => "local " ++ tag.text ++ "#" ++ toString depth
  | .global index tag => "global " ++ tag.text ++ "#" ++ toString index
  | .lam tag _ => "lambda " ++ tag.text
  | .app .. => "apply"

/-- The nodes in preorder. -/
def nodes (t : Term) : List Term :=
  t :: match t with
    | .lam _ body => body.nodes
    | .app left right => left.nodes ++ right.nodes
    | _ => []

theorem length_nodes (t : Term) : t.nodes.length = t.size := by
  induction t with
  | lam tag body ih => simp [nodes, size, ih]
  | app left right ihl ihr => simp [nodes, size, ihl, ihr]
  | _ => simp [nodes, size]

end Term

end MixfixLambda
