import MixfixLambda.Parse.Combine
import MixfixLambda.Parse.Declare
import MixfixLambda.Syntax.Default

/-!
# The state of the parser

The parser keeps the operators that wait for their right operand, newest first, each with its left
operand, and the operand that was read last. Every bracket, also the whole file and every block of lines
of one indentation, is an operator of this kind, and opens a scope of the registry.
-/
namespace MixfixLambda

/-- An operator that waits for its right operand. -/
structure Pending where
  rule : Rule
  tag : Tag
  /-- The operand to its left, if it has one. -/
  left : Option Tree
  /-- An infix operator directly behind `(`, where the left operand of a section is left out. -/
  missingLeft : Bool
  /-- An opening bracket in which a section has been found. -/
  sectioned : Bool
  deriving Repr, Inhabited

namespace Pending

/-- An operator that has no operand to its left. -/
def leading (rule : Rule) (tag : Tag) : Pending :=
  ⟨rule, tag, none, false, false⟩

def isParen (p : Pending) : Bool :=
  p.rule.isOpener && p.rule.bracketKind == some .paren

end Pending

/-- What decides where the lines of a bracket end. -/
inductive Layout where
  /-- Line breaks separate the lines of this indentation. -/
  | block (width : Nat)
  /-- Line breaks mean nothing up to the closing bracket. -/
  | explicit
  deriving DecidableEq, Repr, Inhabited

structure Parser where
  registry : Registry
  /-- The operand behind the newest pending operator. -/
  operand : Option Tree
  /-- The operators that wait for an operand, newest first. -/
  pending : List Pending
  /-- The open brackets, newest first. -/
  layout : List Layout
  /-- The first line has been seen. -/
  started : Bool
  /-- The source that tags point into. -/
  origin : Origin
  deriving Repr

/-- A refused source, with the rules that were in force when it was refused. -/
structure Refusal where
  error : ParseError
  registry : Registry
  deriving Repr

abbrev Parsing (α : Type) := Except Refusal α

namespace Parser

def refuse (p : Parser) (cause : ParseCause) (span : Span) : Parsing α :=
  .error ⟨⟨cause, span⟩, p.registry⟩

/-- An operator lacks an operand. -/
def refuseOperand (p : Parser) (operator : Tag) : Parsing α :=
  p.refuse (.missingOperand operator.text) operator.span

def tag (p : Parser) (text : String) (span : Span) : Tag :=
  ⟨text, span, p.origin⟩

/-- The rule that the whole file is bracketed by. -/
def fileRule : Rule :=
  .opening "" "" .file

/-- The rule that a block of lines is bracketed by. -/
def blockRule : Rule :=
  .opening "indentation" "dedent" .block

/-- Before the first token, under the given rules. -/
def start (registry : Registry) (origin : Origin) : Parser :=
  { registry
    operand := none
    pending := [.leading fileRule ⟨"", Span.origin, origin⟩]
    layout := [.block 0]
    started := false
    origin }

end Parser

end MixfixLambda
