import MixfixLambda.Source.Tag
import MixfixLambda.Syntax.Rule

/-!
# Surface trees

What a source says, before any name is resolved. Leaves and nodes that own brackets record where they
stand; the span of any other node follows from its parts.
-/
namespace MixfixLambda

/-- A syntax declaration: `kind [precedence] symbols.. [after prior]`. -/
structure Declaration where
  kind : DeclarationKind
  precedence : Option Nat
  symbols : List Tag
  prior : Option Tag
  span : Span
  deriving DecidableEq, Repr, Inhabited

inductive Tree where
  | int (value : Int) (span : Span)
  | str (bytes : List UInt8) (span : Span)
  | char (value : Char) (span : Span)
  | name (tag : Tag)
  /-- The operand that an operator section leaves out. -/
  | placeholder (span : Span)
  | apply (function argument : Tree) (span : Span)
  | infixOp (operator : Tag) (left right : Tree)
  | prefixOp (operator : Tag) (operand : Tree)
  | postfixOp (operator : Tag) (operand : Tree)
  /-- A chain of operators: `if c then a else b` has three parts and three operands. A chain whose
  first part is an infix operator has one operand more than parts. -/
  | mixfix (parts : List Tag) (operands : List Tree)
  /-- A pair of brackets that the source has declared. -/
  | bracket (opening closing : Tag) (content : Tree)
  | define (tag : Tag) (pattern body : Tree)
  | lambda (tag : Tag) (pattern body : Tree)
  | asPattern (tag : Tag) (name pattern : Tree)
  | sequence (items : List Tree) (span : Span)
  /-- Items between commas, not yet in brackets. -/
  | comma (items : List Tree) (span : Span)
  | unit (span : Span)
  | tuple (items : List Tree) (span : Span)
  | list (items : List Tree) (span : Span)
  | data (alternatives : List Tree) (span : Span)
  | sectionOf (body : Tree) (span : Span)
  | declaration (declaration : Declaration)
  deriving Repr, Inhabited

/-- The name that a chain is bound by: its parts with `_` between them. -/
def mixfixName (parts : List Tag) : String :=
  "_".intercalate (parts.map Tag.text)

/-- The name that a declared pair of brackets is bound by. -/
def bracketName (opening closing : Tag) : String :=
  opening.text ++ closing.text

namespace Tree

/-- The head of a juxtaposition and its arguments: `f a b` is `f` with `a` and `b`. -/
def spine (t : Tree) : Tree × List Tree :=
  go t []
where
  go : Tree → List Tree → Tree × List Tree
    | .apply function argument _, arguments => go function (argument :: arguments)
    | head, arguments => (head, arguments)

end Tree

end MixfixLambda
