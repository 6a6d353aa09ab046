import MixfixLambda.Bind.Binder

/-!
# Binding with a stack of tasks

`Tree.bindExpr` binds what `Tree.bind` binds, with a stack of tasks and a stack of finished terms, so that long chains
of operators and applications do not nest its calls. Only a construct that opens a scope binds its parts in a run of
their own. The statements of a block are bound in one pass, with their variables left in scope, and are then wrapped
around the last expression from the back.
-/
namespace MixfixLambda

/-- Pending work. -/
inductive BindTask where
  | bind (t : Tree)
  /-- Applies the first of the last so many terms to the others. -/
  | apply (count : Nat)
  /-- Makes a list of the last so many terms. -/
  | list (count : Nat)

/-- A statement of a block that is bound but not yet wrapped around the rest. -/
inductive Statement where
  | action (term : Term)
  /-- `slot` counts the variables of the block that were in scope before. -/
  | named (tag : Tag) (value : Term) (slot : Nat)
  | destructured (pattern : Pattern) (value : Term)

namespace BindM

/-- Brings variables into scope, the first one outermost. -/
def pushLocals (tags : List Tag) : BindM Unit :=
  modify fun b => { b with locals := tags.reverse.map (⟨·, false⟩) ++ b.locals }

/-- Takes the variables that came into scope after the first `outer` ones out of it, and hands them out with their
marks, the outermost first. -/
def splitLocals (outer : Nat) : BindM (List Local) := do
  let b ← get
  let inner := b.locals.length - outer
  set { b with locals := b.locals.drop inner }
  return (b.locals.take inner).reverse

end BindM

namespace Tree

mutual

/-- Number of nodes, those of lists included. -/
def size : Tree → Nat
  | .int .. | .str .. | .char .. | .name _ | .placeholder _ | .unit _ | .declaration _ => 1
  | .apply left right _ | .infixOp _ left right | .define _ left right | .lambda _ left right
  | .asPattern _ left right => left.size + right.size + 1
  | .prefixOp _ inner | .postfixOp _ inner | .bracket _ _ inner | .sectionOf inner _ => inner.size + 1
  | .mixfix _ items | .sequence items _ | .comma items _ | .tuple items _ | .list items _ | .data items _ =>
    sizes items + 1

/-- Number of nodes of several trees and of the list that they are in. -/
def sizes : List Tree → Nat
  | [] => 0
  | t :: rest => t.size + sizes rest + 1

end

end Tree

namespace BindTask

/-- A bound on the work that a task leads to. -/
def weight : BindTask → Nat
  | .bind t => 4 * t.size
  | .apply _ | .list _ => 1

/-- The finished terms, newest first, with what is made of the last so many in their place. -/
def gather (count : Nat) (make : List Term → List Term) (terms : List Term) : List Term :=
  make (terms.take count).reverse ++ terms.drop count

/-- The first of some terms applied to the others. -/
def applied : List Term → List Term
  | [] => []
  | head :: operands => [head.applyAll operands]

/-- The tasks that a node schedules. -/
def schedule : Tree → List BindTask
  | .apply function argument _ => [.bind function, .bind argument, .apply 2]
  | .infixOp _ left right => [.bind left, .bind right, .apply 3]
  | .prefixOp _ operand | .postfixOp _ operand | .bracket _ _ operand => [.bind operand, .apply 2]
  | .mixfix _ operands | .tuple operands _ | .comma operands _ =>
    operands.map .bind ++ [.apply (operands.length + 1)]
  | .list items _ => items.map .bind ++ [.list items.length]
  | _ => []

/-- The weight of several tasks. -/
def weights : List BindTask → Nat
  | [] => 0
  | task :: rest => task.weight + weights rest

theorem weights_append (tasks others : List BindTask) : weights (tasks ++ others) = weights tasks + weights others := by
  induction tasks with
  | nil => simp [weights]
  | cons task rest ih => simp only [List.cons_append, weights, ih, Nat.add_assoc]

theorem weights_map (items : List Tree) : weights (items.map .bind) ≤ 4 * Tree.sizes items := by
  induction items with
  | nil => exact Nat.le_refl 0
  | cons t rest ih =>
    rw [List.map_cons, weights, weight, Tree.sizes]
    omega

/-- What a node schedules weighs less than the node. -/
theorem weights_schedule (t : Tree) : weights (schedule t) < 4 * t.size := by
  cases t with
  | mixfix _ items | tuple items | comma items | list items =>
    have operands := weights_map items
    rw [schedule, weights_append, Tree.size]
    simp only [weights, weight]
    omega
  | _ =>
    simp only [schedule, weights, weight, Tree.size]
    omega

end BindTask

namespace Statement

/-- A statement in front of the rest of its block; `inner` are the variables of the block, the outermost first. -/
def around (inner : List Local) : Statement → Term → BindM Term
  | .action term, rest => return .app term rest
  | .named tag value slot, rest => do
    if !(inner[slot]?).any (·.used) && tag.text.toList.head? != some '_' then
      BindM.warn .unusedBinding tag.text tag.span
    return .app (.lam tag rest) value
  | .destructured pattern value, rest => return .app (pattern.abstract rest) value

end Statement

open BindM Binder
open BindTask (gather applied schedule weight weights weights_append weights_schedule)

namespace Tree

mutual

/-- The term that an expression stands for. -/
def bindExpr (t : Tree) : BindM Term := do
  match ← runTasks [.bind t] [] with
  | term :: _ => return term
  | [] => refuse .missingBody t.span
termination_by 4 * t.size + 2
decreasing_by simp [weights, weight]

/-- Works the tasks off, the first one first, and answers the finished terms, newest first. -/
def runTasks (tasks : List BindTask) (terms : List Term) : BindM (List Term) :=
  match tasks with
  | [] => return terms
  | .bind t :: rest => do
    let started ← bindNode t
    runTasks (schedule t ++ rest) (started ++ terms)
  | .apply count :: rest => runTasks rest (gather count applied terms)
  | .list count :: rest => runTasks rest (gather count (fun items => [Encoding.list items]) terms)
termination_by weights tasks + 1
decreasing_by
  · simp only [weights, weight]
    omega
  · have lighter := weights_schedule t
    simp only [weights_append, weights, weight]
    omega
  · simp only [weights, weight]
    omega
  · simp only [weights, weight]
    omega

/-- The terms that a node finishes at once: its operation, or all of it. -/
def bindNode (t : Tree) : BindM (List Term) :=
  match t with
  | .apply .. | .list .. => return []
  | .infixOp operator _ _ | .postfixOp operator _ => return [← resolve operator]
  | .prefixOp operator operand =>
    if operator.text == "\\" then refuse .missingBody (Tree.prefixOp operator operand).span
    else return [← resolve operator]
  | .mixfix parts _ => return [← resolve (mixfixTag parts)]
  | .bracket opening closing _ => return [← resolve (bracketTag opening closing)]
  | .tuple items _ | .comma items _ => return [Encoding.tuple items.length]
  | .int value _ => return [.int value]
  | .char value _ => return [.int value.toNat]
  | .str bytes _ => return [Encoding.string bytes]
  | .name tag => return [← resolve tag]
  | .placeholder span => return [← resolve ⟨sectionName, span, .synthetic⟩]
  | .unit _ => return [Encoding.identity]
  | .lambda _ pattern body => return [← bindFunction pattern.parameters (bindExpr body)]
  | .sectionOf body _ => do
    let tag := Tag.synthetic sectionName
    return [.lam tag (← withLocals [tag] (bindExpr body))]
  | .sequence items span => do
    let outer := (← get).locals.length
    let outcome ← observing (bindStatements outer [] span items)
    let inner ← splitLocals outer
    let (statements, last) ← ofExcept outcome
    return [← statements.foldrM (·.around inner) last]
  | .data _ span => refuse .misplacedData span
  | .asPattern tag bound pattern => refuse .invalidPattern (Tree.asPattern tag bound pattern).span
  | .define tag lhs body => refuse .missingBody (Tree.define tag lhs body).span
  | .declaration d => refuse .missingBody d.span
termination_by 4 * t.size
decreasing_by all_goals
  simp only [size]
  omega

/-- The statements of a block, and its last expression. `outer` is the number of variables around the block, and
`defined` are the names that the block has defined. -/
def bindStatements (outer : Nat) (defined : List (String × Span)) (span : Span) (items : List Tree) :
    BindM (List Statement × Term) :=
  match items with
  | [] => refuse .missingBody span
  | .declaration _ :: rest => bindStatements outer defined span rest
  | .define tag lhs body :: rest =>
    if rest.all isDeclaration then refuse .missingBody (Tree.define tag lhs body).span
    else if body.isData then refuse .misplacedData body.span
    else
      match lhs.definitionHead?.filter (·.1.text != "_") with
      | some (tag, parameters) => do
        let defined ← distinctNames defined [tag]
        let value ← bindDefinition tag parameters (body.mentions tag.text) (bindExpr body)
        let slot := (← get).locals.length - outer
        pushLocals [tag]
        let (statements, last) ← bindStatements outer defined span rest
        return (.named tag value slot :: statements, last)
      | none => do
        let pattern ← destructuring lhs
        let defined ← distinctNames defined pattern.locals
        let value ← bindExpr body
        pushLocals pattern.locals
        let (statements, last) ← bindStatements outer defined span rest
        return (.destructured pattern value :: statements, last)
  | t :: rest =>
    if rest.all isDeclaration then return ([], ← bindExpr t)
    else do
      let action ← bindExpr t
      let (statements, last) ← bindStatements outer defined span rest
      return (.action action :: statements, last)
termination_by 4 * sizes items + 3
decreasing_by all_goals
  simp only [sizes, size]
  omega

end

end Tree

end MixfixLambda
