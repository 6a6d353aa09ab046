import MixfixLambda.Proofs.Tree.Parts
import MixfixLambda.Proofs.Tree.Unlocated

/-!
# What is made of trees, wherever they stand

What an operator and a bracket make of their operands says what the operands say, so that trees of the same saying
are made alike.
-/
namespace MixfixLambda

@[simp]
theorem Tag.unlocated_unlocated (tag : Tag) : tag.unlocated.unlocated = tag.unlocated :=
  rfl

theorem Tag.unlocated_congr {tag tag' : Tag} (same : tag'.text = tag.text) : tag'.unlocated = tag.unlocated := by
  rw [unlocated, unlocated, same]

@[simp]
theorem Declaration.unlocated_unlocated (d : Declaration) : d.unlocated.unlocated = d.unlocated := by
  obtain ⟨kind, precedence, symbols, prior, span⟩ := d
  cases prior <;> simp [unlocated]

namespace Tree

mutual

@[simp]
theorem unlocated_unlocated (t : Tree) : t.unlocated.unlocated = t.unlocated := by
  cases t with
  | int | str | char | placeholder | unit | name => rfl
  | apply function argument => simp only [unlocated, unlocated_unlocated function, unlocated_unlocated argument]
  | infixOp _ left right | define _ left right | lambda _ left right | asPattern _ left right =>
    simp only [unlocated, Tag.unlocated_unlocated, unlocated_unlocated left, unlocated_unlocated right]
  | prefixOp _ operand | postfixOp _ operand | bracket _ _ operand | sectionOf operand =>
    simp only [unlocated, Tag.unlocated_unlocated, unlocated_unlocated operand]
  | mixfix parts operands =>
    have texts : (parts.map Tag.unlocated).map Tag.unlocated = parts.map Tag.unlocated := by
      simp [Function.comp_def]
    simp only [unlocated, texts, unlocatedEach_unlocatedEach operands]
  | sequence items | comma items | tuple items | list items | data items =>
    simp only [unlocated, unlocatedEach_unlocatedEach items]
  | declaration d => simp only [unlocated, Declaration.unlocated_unlocated]

theorem unlocatedEach_unlocatedEach (ts : List Tree) : unlocatedEach (unlocatedEach ts) = unlocatedEach ts := by
  cases ts with
  | nil => rfl
  | cons t rest => simp only [unlocatedEach, unlocated_unlocated t, unlocatedEach_unlocatedEach rest]

end

variable {left left' right right' t t' : Tree} {tag tag' : Tag}

/-- A node says what it says because of what its child says. -/
theorem map_unlocated_congr {found found' : Option Tree} {make make' : Tree → Tree}
    (same : found'.map unlocated = found.map unlocated)
    (agrees : ∀ t t' : Tree, t'.unlocated = t.unlocated → (make' t').unlocated = (make t).unlocated) :
    (found'.map make').map unlocated = (found.map make).map unlocated := by
  cases found with
  | none =>
    rw [Option.map_none, Option.map_eq_none_iff] at same
    rw [same]
    rfl
  | some t =>
    obtain ⟨t', rfl, same'⟩ := Option.map_eq_some_iff.1 same
    exact congrArg some (agrees t t' same')

theorem attachBody?_unlocated (tag : Tag) (body t : Tree) :
    (attachBody? tag.unlocated body.unlocated t.unlocated).map unlocated = (attachBody? tag body t).map unlocated := by
  fun_induction attachBody? tag body t with
  | case1 operator operand marks => simp [unlocated, attachBody?, marks]
  | case2 operator operand plain ih =>
    rw [unlocated, attachBody?, Tag.unlocated_text, if_neg plain]
    exact map_unlocated_congr ih fun t t' same => by simp [unlocated, same]
  | case3 function argument span ih => exact map_unlocated_congr ih fun t t' same => by simp [unlocated, same]
  | case4 operator first second ih => exact map_unlocated_congr ih fun t t' same => by simp [unlocated, same]
  | case5 t prefixed applied infixed =>
    cases t with
    | prefixOp operator operand => exact (prefixed _ _ rfl).elim
    | apply function argument span => exact (applied _ _ _ rfl).elim
    | infixOp operator first second => exact (infixed _ _ _ rfl).elim
    | _ => rfl

theorem ofInfix_unlocated (reduction : Reduction) (tag : Tag) (left right : Tree) :
    (ofInfix reduction tag.unlocated left.unlocated right.unlocated).unlocated =
      (ofInfix reduction tag left right).unlocated := by
  cases reduction with
  | sequence | comma =>
    rw [ofInfix, ofInfix, separate_unlocated, separate_unlocated, unlocated_unlocated, unlocated_unlocated]
  | lambda =>
    have attached := attachBody?_unlocated tag right left
    rw [ofInfix, ofInfix, abstract, abstract]
    cases found : attachBody? tag right left with
    | none =>
      rw [found, Option.map_none, Option.map_eq_none_iff] at attached
      rw [attached]
      simp [unlocated]
    | some t =>
      rw [found, Option.map_some, Option.map_eq_some_iff] at attached
      obtain ⟨t', found', same⟩ := attached
      rw [found']
      exact same
  | _ => simp [ofInfix, juxtapose, unlocated]

/-- Operators make the same of operands that say the same. -/
theorem ofInfix_congr (reduction : Reduction) (tagged : tag'.text = tag.text)
    (first : left'.unlocated = left.unlocated) (second : right'.unlocated = right.unlocated) :
    (ofInfix reduction tag' left' right').unlocated = (ofInfix reduction tag left right).unlocated := by
  rw [← ofInfix_unlocated, ← ofInfix_unlocated reduction tag, Tag.unlocated_congr tagged, first, second]

variable {kind : BracketKind} {opening opening' closing closing' : Tag} {content content' : Option Tree}
  {sectioned : Bool}

theorem listed_unlocated_map (content : Option Tree) :
    listed (content.map unlocated) = (listed content).map unlocated := by
  cases content with
  | none => rfl
  | some t => cases t <;> simp [listed, unlocated]

theorem ofBracket_unlocated (kind : BracketKind) (opening closing : Tag) (content : Option Tree) (sectioned : Bool) :
    (ofBracket kind opening.unlocated closing.unlocated (content.map unlocated) sectioned).toOption.map unlocated =
      (ofBracket kind opening closing content sectioned).toOption.map unlocated := by
  have items := listed_unlocated_map content
  cases kind with
  | square | brace => simp [ofBracket, items, unlocated, Except.toOption]
  | paren | block | file | user =>
    cases content with
    | none => cases sectioned <;> simp [ofBracket, unlocated, Except.toOption]
    | some t => cases t <;> cases sectioned <;> simp [ofBracket, unlocated, Except.toOption]

/-- Brackets of contents that say the same are accepted alike, and say the same. -/
theorem ofBracket_congr (opened : opening'.text = opening.text) (closed : closing'.text = closing.text)
    (same : content'.map unlocated = content.map unlocated)
    (made : ofBracket kind opening closing content sectioned = .ok t) :
    ∃ t', ofBracket kind opening' closing' content' sectioned = .ok t' ∧ t'.unlocated = t.unlocated := by
  have there := ofBracket_unlocated kind opening' closing' content' sectioned
  rw [Tag.unlocated_congr opened, Tag.unlocated_congr closed, same, ofBracket_unlocated, made] at there
  cases made' : ofBracket kind opening' closing' content' sectioned with
  | error e =>
    rw [made'] at there
    cases there
  | ok t' =>
    rw [made'] at there
    exact ⟨t', rfl, (Option.some.inj there).symm⟩

end Tree

end MixfixLambda
