import MixfixLambda.Proofs.Tree.Parts
import MixfixLambda.Proofs.Tree.Unlocated

/-!
# Where operands are left out

A tree is whole if operands are left out nowhere but in its sections, each of which is an infix operator that lacks
one of its two operands. What reductions and brackets make of whole operands is whole.
-/
namespace MixfixLambda.Tree

def isSection : Tree → Bool
  | .sectionOf .. => true
  | _ => false

/-- Operands are left out in sections only, one in each. -/
inductive Whole : Tree → Prop
  | node {t : Tree} (present : t.isPlaceholder = false) (plain : t.isSection = false)
      (children : ∀ child ∈ t.children, Whole child) : Whole t
  | lacksLeft {operator : Tag} {gap span : Span} {right : Tree} (whole : Whole right) :
      Whole (.sectionOf (.infixOp operator (.placeholder gap) right) span)
  | lacksRight {operator : Tag} {gap span : Span} {left : Tree} (whole : Whole left) :
      Whole (.sectionOf (.infixOp operator left (.placeholder gap)) span)

/-- An infix operator that lacks one of its operands, as a section encloses it. -/
inductive Lacking : Tree → Prop
  | left {operator : Tag} {gap : Span} {right : Tree} (whole : Whole right) :
      Lacking (.infixOp operator (.placeholder gap) right)
  | right {operator : Tag} {gap : Span} {left : Tree} (whole : Whole left) :
      Lacking (.infixOp operator left (.placeholder gap))

variable {t left right : Tree}

theorem Whole.present (whole : Whole t) : t.isPlaceholder = false := by
  cases whole with
  | node present => exact present
  | lacksLeft | lacksRight => rfl

theorem Whole.child (whole : Whole t) (plain : t.isSection = false) : ∀ child ∈ t.children, Whole child := by
  cases whole with
  | node _ _ children => exact children
  | lacksLeft | lacksRight => cases plain

/-- A leaf that is no placeholder. -/
theorem whole_leaf (leaf : t.isLeaf = true) : Whole t := by
  cases t with
  | int | str | char | name | declaration => exact .node rfl rfl (by simp [children])
  | _ => cases leaf

theorem whole_pair {make : Tree} (present : make.isPlaceholder = false) (plain : make.isSection = false)
    (both : make.children = [left, right]) (first : Whole left) (second : Whole right) : Whole make :=
  .node present plain (by simpa [both] using ⟨first, second⟩)

theorem whole_separate {reduction : Reduction} (first : Whole left) (second : Whole right) :
    Whole (separate reduction left right) := by
  have items : ∀ item ∈ left :: (itemsOf reduction right).getD [right], Whole item := by
    refine List.forall_mem_cons.2 ⟨first, ?_⟩
    cases chain : itemsOf reduction right with
    | none => simpa using second
    | some items =>
      have node : right.isSection = false ∧ right.children = items := by
        unfold itemsOf at chain
        split at chain <;> cases chain <;> exact ⟨rfl, rfl⟩
      exact node.2 ▸ second.child node.1
  cases reduction <;> exact .node rfl rfl items

theorem whole_attachBody? {tag : Tag} {body : Tree} (whole : Whole left) (behind : Whole body)
    (attached : attachBody? tag body left = some t) : Whole t := by
  fun_induction attachBody? tag body left generalizing t with
  | case1 =>
    cases attached
    exact whole_pair rfl rfl rfl (whole.child rfl _ (List.mem_singleton_self _)) behind
  | case2 operator operand plain ih =>
    obtain ⟨inner, found, rfl⟩ := Option.map_eq_some_iff.1 attached
    have inner := ih (whole.child rfl _ (List.mem_singleton_self _)) found
    exact .node rfl rfl (by simpa [children] using inner)
  | case3 function argument span ih =>
    obtain ⟨inner, found, rfl⟩ := Option.map_eq_some_iff.1 attached
    have both := whole.child rfl
    simp only [children, List.forall_mem_cons] at both
    exact whole_pair rfl rfl rfl both.1 (ih both.2.1 found)
  | case4 operator first second ih =>
    obtain ⟨inner, found, rfl⟩ := Option.map_eq_some_iff.1 attached
    have both := whole.child rfl
    simp only [children, List.forall_mem_cons] at both
    exact whole_pair rfl rfl rfl both.1 (ih both.2.1 found)
  | case5 => cases attached

theorem whole_abstract {tag : Tag} (first : Whole left) (second : Whole right) : Whole (abstract tag left right) := by
  unfold abstract
  cases attached : attachBody? tag right left with
  | none => exact whole_pair rfl rfl rfl first second
  | some t => exact whole_attachBody? first second attached

theorem whole_ofInfix {reduction : Reduction} {tag : Tag} (first : Whole left) (second : Whole right) :
    Whole (ofInfix reduction tag left right) := by
  cases reduction with
  | sequence | comma =>
    rw [ofInfix]
    exact whole_separate first second
  | lambda => exact whole_abstract first second
  | _ => exact whole_pair rfl rfl rfl first second

theorem whole_listed {content : Option Tree} (whole : ∀ t ∈ content, Whole t) :
    ∀ item ∈ listed content, Whole item := by
  cases content with
  | none => simp [listed]
  | some t =>
    cases t with
    | comma => exact (whole _ rfl).child rfl
    | _ => exact fun item inside => List.mem_singleton.1 inside ▸ whole _ rfl

/-- A bracket that is no section has whole content, and is whole itself. -/
theorem whole_ofBracket {kind : BracketKind} {opening closing : Tag} {content : Option Tree}
    (whole : ∀ t ∈ content, Whole t) (made : ofBracket kind opening closing content false = .ok t) : Whole t := by
  cases kind with
  | paren =>
    cases made
    cases content with
    | none => exact .node rfl rfl (by simp [children])
    | some t =>
      cases t with
      | comma => exact .node rfl rfl ((whole _ rfl).child rfl)
      | _ => exact whole _ rfl
  | square | brace =>
    cases made
    exact .node rfl rfl (whole_listed whole)
  | block | file =>
    cases content with
    | none =>
      cases made
      exact .node rfl rfl (by simp [children])
    | some t =>
      cases t with
      | comma => cases made
      | _ =>
        cases made
        exact whole _ rfl
  | user =>
    cases made
    refine .node rfl rfl ?_
    cases content with
    | none => simpa [children] using Whole.node rfl rfl (by simp [children])
    | some t => simpa [children] using whole t rfl

/-- Parentheses around an operator that lacks an operand are a section. -/
theorem Lacking.ofBracket {opening closing : Tag} (lacking : Lacking t)
    {made : Tree} (closed : Tree.ofBracket .paren opening closing (some t) true = .ok made) : Whole made := by
  cases lacking <;> cases closed
  · next whole => exact .lacksLeft whole
  · next whole => exact .lacksRight whole

end MixfixLambda.Tree
