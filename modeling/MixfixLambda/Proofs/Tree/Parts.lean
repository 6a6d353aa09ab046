import MixfixLambda.Parse.Combine

/-!
# Parts of trees

The trees that occur in a tree. What reductions and brackets make of their operands has the leaves of
these operands and no others.
-/
namespace MixfixLambda.Tree

/-- The trees directly under the root. -/
def children : Tree → List Tree
  | .apply function argument _ => [function, argument]
  | .infixOp _ left right => [left, right]
  | .prefixOp _ operand | .postfixOp _ operand => [operand]
  | .mixfix _ operands => operands
  | .bracket _ _ content => [content]
  | .define _ pattern body | .lambda _ pattern body => [pattern, body]
  | .asPattern _ bound pattern => [bound, pattern]
  | .sequence items _ | .comma items _ | .tuple items _ | .list items _ | .data items _ => items
  | .sectionOf body _ => [body]
  | .int .. | .str .. | .char .. | .name _ | .placeholder _ | .unit _ | .declaration _ => []

/-- A tree occurs in another one, as the whole of it or further down. -/
inductive Part (x : Tree) : Tree → Prop
  | root : Part x x
  | under {t child : Tree} (inside : child ∈ t.children) (part : Part x child) : Part x t

theorem part_iff {x t : Tree} : Part x t ↔ x = t ∨ ∃ child ∈ t.children, Part x child := by
  constructor
  · rintro (_ | ⟨inside, part⟩)
    · exact .inl rfl
    · exact .inr ⟨_, inside, part⟩
  · rintro (rfl | ⟨child, inside, part⟩)
    · exact .root
    · exact .under inside part

/-- Every tree that occurs in this one has the property. -/
def Each (P : Tree → Prop) (t : Tree) : Prop :=
  ∀ x, Part x t → P x

theorem each_iff {P : Tree → Prop} {t : Tree} : Each P t ↔ P t ∧ ∀ child ∈ t.children, Each P child := by
  constructor
  · exact fun each => ⟨each t .root, fun child inside x part => each x (.under inside part)⟩
  · rintro ⟨root, below⟩ x part
    rcases part_iff.1 part with rfl | ⟨child, inside, part⟩
    · exact root
    · exact below child inside x part

/-- What a token or a declaration is read as. -/
def isLeaf : Tree → Bool
  | .int .. | .str .. | .char .. | .name _ | .declaration _ => true
  | .placeholder _ | .apply .. | .infixOp .. | .prefixOp .. | .postfixOp .. | .mixfix .. | .bracket .. | .define ..
  | .lambda .. | .asPattern .. | .sequence .. | .comma .. | .unit _ | .tuple .. | .list .. | .data ..
  | .sectionOf .. => false

variable {x t left right : Tree}

theorem part_leaf (leaf : t.isLeaf = true) : Part x t ↔ x = t := by
  have alone : t.children = [] := by
    cases t <;> first
      | rfl
      | cases leaf
  rw [part_iff, alone]
  simp

/-- A leaf of any other tree occurs further down. -/
theorem part_node (leaf : x.isLeaf = true) (node : ¬t.isLeaf = true) :
    Part x t ↔ ∃ child ∈ t.children, Part x child := by
  rw [part_iff, or_iff_right]
  rintro rfl
  exact node leaf

theorem part_separate (leaf : x.isLeaf = true) {reduction : Reduction} :
    Part x (separate reduction left right) ↔ Part x left ∨ Part x right := by
  have items : (∃ child ∈ (itemsOf reduction right).getD [right], Part x child) ↔ Part x right := by
    cases chain : itemsOf reduction right with
    | none => simp
    | some items =>
      have node : ¬right.isLeaf = true ∧ right.children = items := by
        unfold itemsOf at chain
        split at chain <;> cases chain <;> exact ⟨Bool.false_ne_true, rfl⟩
      rw [part_node leaf node.1, node.2, Option.getD_some]
  have whole : Part x (separate reduction left right) ↔
      ∃ child ∈ left :: (itemsOf reduction right).getD [right], Part x child := by
    cases reduction <;> exact part_node leaf Bool.false_ne_true
  rw [whole, ← items]
  simp

theorem part_attachBody? (leaf : x.isLeaf = true) {tag : Tag} {body : Tree}
    (attached : attachBody? tag body left = some t) : Part x t ↔ Part x left ∨ Part x body := by
  fun_induction attachBody? tag body left generalizing t with
  | case1 operator operand marker =>
    cases attached
    simp [part_node leaf, isLeaf, children]
  | case2 operator operand plain ih =>
    obtain ⟨inner, found, rfl⟩ := Option.map_eq_some_iff.1 attached
    simp [part_node leaf, isLeaf, children, ih found]
  | case3 function argument span ih =>
    obtain ⟨inner, found, rfl⟩ := Option.map_eq_some_iff.1 attached
    simp [part_node leaf, isLeaf, children, ih found, or_assoc]
  | case4 operator first second ih =>
    obtain ⟨inner, found, rfl⟩ := Option.map_eq_some_iff.1 attached
    simp [part_node leaf, isLeaf, children, ih found, or_assoc]
  | case5 => cases attached

theorem part_abstract (leaf : x.isLeaf = true) {tag : Tag} {body : Tree} :
    Part x (abstract tag left body) ↔ Part x left ∨ Part x body := by
  unfold abstract
  cases attached : attachBody? tag body left with
  | none => simp [part_node leaf, isLeaf, children]
  | some t => exact part_attachBody? leaf attached

/-- An infix operator keeps the leaves of its operands. -/
theorem part_ofInfix (leaf : x.isLeaf = true) {reduction : Reduction} {tag : Tag} :
    Part x (ofInfix reduction tag left right) ↔ Part x left ∨ Part x right := by
  unfold ofInfix
  split
  · simp [juxtapose, part_node leaf, isLeaf, children]
  · exact part_separate leaf
  · exact part_separate leaf
  · simp [part_node leaf, isLeaf, children]
  · exact part_abstract leaf
  all_goals simp [part_node leaf, isLeaf, children]

theorem part_listed (leaf : x.isLeaf = true) (content : Option Tree) :
    (∃ child ∈ listed content, Part x child) ↔ ∃ t ∈ content, Part x t := by
  cases content with
  | none => simp [listed]
  | some t => cases t <;> simp [listed, part_node leaf, isLeaf, children]

/-- A pair of brackets keeps the leaves of its content. -/
theorem part_ofBracket (leaf : x.isLeaf = true) {kind : BracketKind} {opening closing : Tag}
    {content : Option Tree} {sectioned : Bool}
    (made : ofBracket kind opening closing content sectioned = .ok t) :
    Part x t ↔ ∃ t ∈ content, Part x t := by
  have placed (body : Tree) (span : Span) :
      Part x (if sectioned then .sectionOf body span else body) ↔ Part x body := by
    cases sectioned
    · rfl
    · simp [part_node leaf, isLeaf, children]
  cases kind with
  | paren =>
    cases made
    rw [placed]
    cases content with
    | none => simp [part_node leaf, isLeaf, children]
    | some t => cases t <;> simp [part_node leaf, isLeaf, children]
  | square =>
    cases made
    refine (part_node leaf ?_).trans (part_listed leaf content)
    exact Bool.false_ne_true
  | brace =>
    cases made
    refine (part_node leaf ?_).trans (part_listed leaf content)
    exact Bool.false_ne_true
  | block | file =>
    cases content with
    | none =>
      cases made
      simp [part_node leaf, isLeaf, children]
    | some t => cases t <;> cases made <;> simp
  | user =>
    cases made
    cases content <;> simp [part_node leaf, isLeaf, children]

end MixfixLambda.Tree
