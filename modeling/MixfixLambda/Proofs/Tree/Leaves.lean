import Mathlib.Data.List.Forall2
import MixfixLambda.Proofs.Tree.Parts
import MixfixLambda.Token.Basic

/-!
# Literals from left to right

The literals of a tree in the order in which they are written, together with the places where a declaration has
taken one up as its precedence. What reductions and brackets make of their operands has the literals of these
operands one after the other.
-/
namespace MixfixLambda

/-- What a literal of the source is in a tree. -/
inductive Leaf where
  | literal (x : Lexeme)
  /-- The declaration has taken it up as its precedence. -/
  | precedence (d : Declaration)

namespace Leaf

/-- The literal, if it is still one. -/
def literal? : Leaf → Option Lexeme
  | .literal x => some x
  | .precedence _ => none

/-- The literal that is written is the one that the tree has. -/
inductive Reads : Lexeme → Leaf → Prop
  | literal (x : Lexeme) : Reads x (.literal x)
  | precedence {d : Declaration} {n : Nat} {span : Span} (taken : d.precedence = some n) :
      Reads ⟨.int n, span⟩ (.precedence d)

end Leaf

namespace Tree

mutual

/-- The literals of a tree, from left to right. -/
def leaves : Tree → List Leaf
  | .int value span => [.literal ⟨.int value, span⟩]
  | .str bytes span => [.literal ⟨.str bytes, span⟩]
  | .char value span => [.literal ⟨.char value, span⟩]
  | .name _ | .placeholder _ | .unit _ => []
  | .apply function argument _ => function.leaves ++ argument.leaves
  | .infixOp _ left right => left.leaves ++ right.leaves
  | .prefixOp _ operand | .postfixOp _ operand => operand.leaves
  | .mixfix _ operands => leavesEach operands
  | .bracket _ _ content => content.leaves
  | .define _ pattern body | .lambda _ pattern body => pattern.leaves ++ body.leaves
  | .asPattern _ bound pattern => bound.leaves ++ pattern.leaves
  | .sequence items _ | .comma items _ | .tuple items _ | .list items _ | .data items _ => leavesEach items
  | .sectionOf body _ => body.leaves
  | .declaration d => if d.precedence.isSome then [.precedence d] else []

/-- The literals of several trees in a row. -/
def leavesEach : List Tree → List Leaf
  | [] => []
  | t :: rest => t.leaves ++ leavesEach rest

end

@[simp]
theorem leavesEach_eq_flatMap (ts : List Tree) : leavesEach ts = ts.flatMap leaves := by
  induction ts with
  | nil => rfl
  | cons t ts ih => simp [leavesEach, ih]

/-- The literals of an operand, where there is one. -/
def leavesOf (operand : Option Tree) : List Leaf :=
  operand.toList.flatMap leaves

@[simp]
theorem leavesOf_none : leavesOf none = [] :=
  rfl

@[simp]
theorem leavesOf_some (t : Tree) : leavesOf (some t) = t.leaves :=
  List.flatMap_singleton ..

variable {t left right : Tree}

theorem leaves_separate {reduction : Reduction} :
    (separate reduction left right).leaves = left.leaves ++ right.leaves := by
  have items : ((itemsOf reduction right).getD [right]).flatMap leaves = right.leaves := by
    cases chain : itemsOf reduction right with
    | none => simp
    | some items =>
      unfold itemsOf at chain
      split at chain <;> cases chain <;> simp [leaves]
  cases reduction <;> simp [separate, leaves, items]

theorem leaves_attachBody? {tag : Tag} {body : Tree} (attached : attachBody? tag body left = some t) :
    t.leaves = left.leaves ++ body.leaves := by
  fun_induction attachBody? tag body left generalizing t with
  | case1 =>
    cases attached
    simp [leaves]
  | case2 operator operand plain ih =>
    obtain ⟨inner, found, rfl⟩ := Option.map_eq_some_iff.1 attached
    simp [leaves, ih found]
  | case3 function argument span ih =>
    obtain ⟨inner, found, rfl⟩ := Option.map_eq_some_iff.1 attached
    simp [leaves, ih found]
  | case4 operator first second ih =>
    obtain ⟨inner, found, rfl⟩ := Option.map_eq_some_iff.1 attached
    simp [leaves, ih found]
  | case5 => cases attached

theorem leaves_abstract {tag : Tag} {body : Tree} : (abstract tag left body).leaves = left.leaves ++ body.leaves := by
  unfold abstract
  cases attached : attachBody? tag body left with
  | none => simp [leaves]
  | some t => exact leaves_attachBody? attached

/-- An infix operator keeps the literals of its operands in a row. -/
theorem leaves_ofInfix {reduction : Reduction} {tag : Tag} :
    (ofInfix reduction tag left right).leaves = left.leaves ++ right.leaves := by
  cases reduction with
  | sequence | comma => rw [ofInfix, leaves_separate]
  | lambda => rw [ofInfix, leaves_abstract]
  | _ => simp [ofInfix, juxtapose, leaves]

theorem leaves_listed (content : Option Tree) : (listed content).flatMap leaves = leavesOf content := by
  cases content with
  | none => rfl
  | some t => cases t <;> simp [listed, leaves]

/-- A pair of brackets keeps the literals of its content. -/
theorem leaves_ofBracket {kind : BracketKind} {opening closing : Tag} {content : Option Tree} {sectioned : Bool}
    (made : ofBracket kind opening closing content sectioned = .ok t) : t.leaves = leavesOf content := by
  cases kind with
  | paren =>
    cases made
    have placed (body : Tree) (span : Span) :
        (if sectioned then sectionOf body span else body).leaves = body.leaves := by
      cases sectioned <;> simp [leaves]
    rw [placed]
    cases content with
    | none => simp [leaves]
    | some t => cases t <;> simp [leaves]
  | square | brace =>
    cases made
    rw [leaves, leavesEach_eq_flatMap, leaves_listed]
  | block | file =>
    cases content with
    | none =>
      cases made
      simp [leaves]
    | some t => cases t <;> cases made <;> simp
  | user =>
    cases made
    cases content <;> simp [leaves]

end Tree

end MixfixLambda
