import MixfixLambda.Parse.Error
import MixfixLambda.Tree.Extent

/-!
# Trees of reduced operators

What an operator makes of its operands once they are complete, and a pair of brackets of its content.
-/
namespace MixfixLambda.Tree

/-- A juxtaposition. -/
def juxtapose (function argument : Tree) : Tree :=
  .apply function argument (function.span.merge argument.span)

/-- The items of a chain of separators, in source order; none for any other tree. -/
def itemsOf (reduction : Reduction) (t : Tree) : Option (List Tree) :=
  match reduction, t with
  | .sequence, .sequence items _ => some items
  | .comma, .comma items _ => some items
  | _, _ => none

/-- One operand more in front of a chain of `;` or `,`. A chain on the right is continued, anything else
starts a chain. -/
def separate (reduction : Reduction) (left right : Tree) : Tree :=
  let items := left :: (itemsOf reduction right).getD [right]
  let span := left.span.merge ((items.getLast?).getD left).span
  match reduction with
  | .comma => .comma items span
  | _ => .sequence items span

/-- Whether a tree is a parameter list after `\`. -/
def isLambdaHead : Tree → Bool
  | .prefixOp operator _ => operator.text == "\\"
  | _ => false

/-- Gives a body to the first parameter list after `\` on the right edge of a tree, if there is one:
`f \x -> b` means `f (\x -> b)`. Juxtapositions above it grow by the body. -/
def attachBody? (tag : Tag) (body : Tree) : Tree → Option Tree
  | .prefixOp operator operand =>
    if operator.text == "\\" then some (.lambda tag operand body)
    else (attachBody? tag body operand).map (.prefixOp operator)
  | .apply function argument span =>
    (attachBody? tag body argument).map fun argument =>
      .apply function argument (span.merge body.span)
  | .infixOp operator left right => (attachBody? tag body right).map (.infixOp operator left)
  | _ => none

/-- An abstraction over the marked parameter list on the right edge, or else over the whole left
operand. -/
def abstract (tag : Tag) (left body : Tree) : Tree :=
  (attachBody? tag body left).getD (.lambda tag left body)

/-- The tree of an infix operator and its operands. -/
def ofInfix (reduction : Reduction) (tag : Tag) (left right : Tree) : Tree :=
  match reduction with
  | .apply => juxtapose left right
  | .sequence | .comma => separate reduction left right
  | .define => .define tag left right
  | .lambda => abstract tag left right
  | .asPattern => .asPattern tag left right
  | _ => .infixOp tag left right

/-- What a bracket lists: the items between commas, or its one item, or nothing. -/
def listed : Option Tree → List Tree
  | none => []
  | some (.comma items _) => items
  | some t => [t]

/-- The tree of a pair of brackets. The lines of a block and of a file take no commas. -/
def ofBracket (kind : BracketKind) (opening closing : Tag) (content : Option Tree)
    (sectioned : Bool) : Except ParseError Tree :=
  let span := opening.span.merge closing.span
  match kind with
  | .paren =>
    let body : Tree :=
      match content with
      | none => .unit span
      | some (.comma items _) => .tuple items span
      | some t => t
    .ok (if sectioned then .sectionOf body span else body)
  | .square => .ok (.list (listed content) span)
  | .brace => .ok (.data (listed content) span)
  | .block | .file =>
    match content with
    | none => .ok (.sequence [] span)
    | some (.comma _ s) => .error ⟨.strayComma, s⟩
    | some t => .ok t
  | .user => .ok (.bracket opening closing (content.getD (.unit closing.span)))

end MixfixLambda.Tree
