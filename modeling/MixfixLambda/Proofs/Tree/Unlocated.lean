import MixfixLambda.Tree.Printer
import MixfixLambda.Parse.Combine

/-!
# Trees without their places

Two trees say the same, wherever they stand, when they are equal once every span is the origin and every
tag is its text. What is printed, and how a tree goes on when an operator takes it, depends on this much
of it only.
-/
namespace MixfixLambda

/-- The text of a tag, without a place. -/
def Tag.unlocated (tag : Tag) : Tag :=
  .synthetic tag.text

@[simp]
theorem Tag.unlocated_text (tag : Tag) : tag.unlocated.text = tag.text :=
  rfl

/-- What a declaration says. -/
def Declaration.unlocated (d : Declaration) : Declaration :=
  { d with
    symbols := d.symbols.map Tag.unlocated
    prior := d.prior.map Tag.unlocated
    span := Span.origin }

theorem Declaration.render_unlocated (d : Declaration) : d.unlocated.render = d.render := by
  obtain ⟨kind, precedence, symbols, prior, span⟩ := d
  cases prior <;> simp [unlocated, render, Function.comp_def]

namespace Tree

mutual

/-- What a tree says. -/
def unlocated : Tree → Tree
  | .int value _ => .int value Span.origin
  | .str bytes _ => .str bytes Span.origin
  | .char value _ => .char value Span.origin
  | .name tag => .name tag.unlocated
  | .placeholder _ => .placeholder Span.origin
  | .apply function argument _ => .apply function.unlocated argument.unlocated Span.origin
  | .infixOp operator left right => .infixOp operator.unlocated left.unlocated right.unlocated
  | .prefixOp operator operand => .prefixOp operator.unlocated operand.unlocated
  | .postfixOp operator operand => .postfixOp operator.unlocated operand.unlocated
  | .mixfix parts operands => .mixfix (parts.map Tag.unlocated) (unlocatedEach operands)
  | .bracket opening closing content =>
    .bracket opening.unlocated closing.unlocated content.unlocated
  | .define tag pattern body => .define tag.unlocated pattern.unlocated body.unlocated
  | .lambda tag pattern body => .lambda tag.unlocated pattern.unlocated body.unlocated
  | .asPattern tag bound pattern => .asPattern tag.unlocated bound.unlocated pattern.unlocated
  | .sequence items _ => .sequence (unlocatedEach items) Span.origin
  | .comma items _ => .comma (unlocatedEach items) Span.origin
  | .unit _ => .unit Span.origin
  | .tuple items _ => .tuple (unlocatedEach items) Span.origin
  | .list items _ => .list (unlocatedEach items) Span.origin
  | .data alternatives _ => .data (unlocatedEach alternatives) Span.origin
  | .sectionOf body _ => .sectionOf body.unlocated Span.origin
  | .declaration d => .declaration d.unlocated

/-- What each tree says. -/
def unlocatedEach : List Tree → List Tree
  | [] => []
  | t :: rest => t.unlocated :: unlocatedEach rest

end

@[simp]
theorem unlocatedEach_eq_map (ts : List Tree) : unlocatedEach ts = ts.map unlocated := by
  induction ts with
  | nil => rfl
  | cons t ts ih => simp [unlocatedEach, ih]

/-- Whether a tree stands for an operand that a section leaves out. -/
def isPlaceholder : Tree → Bool
  | .placeholder _ => true
  | _ => false

@[simp]
theorem isPlaceholder_unlocated (t : Tree) : t.unlocated.isPlaceholder = t.isPlaceholder := by
  cases t <;> rfl

/-- A printed infix operator; an operand that is left out shows as nothing. -/
theorem render_infixOp (operator : Tag) (left right : Tree) :
    (Tree.infixOp operator left right).render =
      if left.isPlaceholder then "(" ++ operator.text ++ " " ++ right.render ++ ")"
      else if right.isPlaceholder then "(" ++ left.render ++ " " ++ operator.text ++ ")"
      else "(" ++ left.render ++ " " ++ operator.text ++ " " ++ right.render ++ ")" := by
  cases left <;> first
    | rfl
    | cases right <;> rfl

theorem render_bracket_congr {opening closing : Tag} {content other : Tree}
    (same : other.render = content.render)
    (unit : (∃ span, other = .unit span) ↔ ∃ span, content = .unit span) :
    (Tree.bracket opening.unlocated closing.unlocated other).render =
      (Tree.bracket opening closing content).render := by
  cases content <;> cases other <;> simp_all [render]

mutual

theorem render_unlocated (t : Tree) : t.unlocated.render = t.render := by
  cases t with
  | int | str | char | placeholder | unit => rfl
  | name tag => rfl
  | apply function argument =>
    simp only [unlocated, render, render_unlocated function, render_unlocated argument]
  | infixOp operator left right =>
    simp only [unlocated, render_infixOp, isPlaceholder_unlocated, Tag.unlocated_text,
      render_unlocated left, render_unlocated right]
  | prefixOp _ operand | postfixOp _ operand =>
    simp only [unlocated, render, Tag.unlocated_text, render_unlocated operand]
  | bracket opening closing content =>
    refine render_bracket_congr (render_unlocated content) ?_
    cases content <;> simp [unlocated]
  | define _ left right | lambda _ left right | asPattern _ left right =>
    simp only [unlocated, render, Tag.unlocated_text, render_unlocated left, render_unlocated right]
  | mixfix parts operands =>
    have texts : (parts.map Tag.unlocated).map Tag.text = parts.map Tag.text := by
      simp [Function.comp_def]
    simp only [unlocated, render, texts, renderEach_unlocated operands]
  | sequence items | comma items | tuple items | list items | data items =>
    simp only [unlocated, render, renderEach_unlocated items]
  | sectionOf body => exact render_unlocated body
  | declaration d => exact d.render_unlocated

theorem renderEach_unlocated (ts : List Tree) :
    renderEach (unlocatedEach ts) = renderEach ts := by
  cases ts with
  | nil => rfl
  | cons t rest =>
    simp only [unlocatedEach, renderEach, render_unlocated t, renderEach_unlocated rest]

end

theorem itemsOf_unlocated (reduction : Reduction) (t : Tree) :
    itemsOf reduction t.unlocated = (itemsOf reduction t).map (·.map unlocated) := by
  cases reduction <;> cases t <;> simp [itemsOf, unlocated]

theorem separate_unlocated (reduction : Reduction) (left right : Tree) :
    (separate reduction left right).unlocated =
      match reduction with
      | .comma => .comma (left.unlocated :: (itemsOf reduction right.unlocated).getD [right.unlocated])
          Span.origin
      | _ => .sequence (left.unlocated :: (itemsOf reduction right.unlocated).getD [right.unlocated])
          Span.origin := by
  have items : ((itemsOf reduction right).getD [right]).map unlocated =
      (itemsOf reduction right.unlocated).getD [right.unlocated] := by
    rw [itemsOf_unlocated]
    cases itemsOf reduction right <;> rfl
  cases reduction <;> simp only [separate, unlocated, unlocatedEach, unlocatedEach_eq_map, items]

end Tree

end MixfixLambda
