import MixfixLambda.Tree.Basic

/-!
# Mentioned names

Whether a name occurs in a tree as a name, as an operator, or as the joined name of a chain or of a
pair of brackets. The name that an as-pattern binds is no mention.
-/
namespace MixfixLambda.Tree

mutual

def mentions (name : String) : Tree → Bool
  | .int .. | .str .. | .char .. | .placeholder _ | .unit _ | .declaration _ => false
  | .name tag => tag.text == name
  | .apply function argument _ => function.mentions name || argument.mentions name
  | .infixOp operator left right =>
    operator.text == name || left.mentions name || right.mentions name
  | .prefixOp operator operand | .postfixOp operator operand =>
    operator.text == name || operand.mentions name
  | .mixfix parts operands => mixfixName parts == name || anyMentions name operands
  | .bracket opening closing content =>
    bracketName opening closing == name || content.mentions name
  | .define _ pattern body | .lambda _ pattern body => pattern.mentions name || body.mentions name
  | .asPattern _ _ pattern => pattern.mentions name
  | .sectionOf body _ => body.mentions name
  | .sequence items _ | .comma items _ | .tuple items _ | .list items _ | .data items _ =>
    anyMentions name items

/-- Whether the name occurs in one of the trees. -/
def anyMentions (name : String) : List Tree → Bool
  | [] => false
  | t :: rest => t.mentions name || anyMentions name rest

end

theorem anyMentions_eq_any (name : String) (ts : List Tree) :
    anyMentions name ts = ts.any (mentions name) := by
  induction ts with
  | nil => rfl
  | cons t ts ih => simp [anyMentions, ih]

end MixfixLambda.Tree
