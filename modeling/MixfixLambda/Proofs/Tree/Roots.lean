import MixfixLambda.Proofs.Tree.Commas

/-!
# Properties of roots

A property of the root of a tree that is only about the tags the tree is called by. What operators and
brackets make of trees that have it everywhere has it everywhere, too, as soon as the tags of the operator or
the bracket itself allow it.
-/
namespace MixfixLambda

/-- The operator is called by its own tag. -/
def Reduction.isCalled : Reduction → Bool
  | .apply | .sequence | .comma | .define | .lambda | .asPattern => false
  | .operand | .operator | .erase | .declare _ | .bracket _ => true

namespace Tree

/-- Trees that are not called by any tag: what they are is fixed by the grammar. -/
def isPlain : Tree → Bool
  | .int .. | .str .. | .char .. | .placeholder _ | .apply .. | .define .. | .lambda .. | .asPattern .. | .sequence ..
  | .comma .. | .unit _ | .tuple .. | .list .. | .data .. | .sectionOf .. => true
  | .name _ | .infixOp .. | .prefixOp .. | .postfixOp .. | .mixfix .. | .bracket .. | .declaration _ => false

/-- The property holds of plain trees, and does not look at the operands of an operator. -/
structure OfCalls (P : Tree → Prop) : Prop where
  plain : ∀ {t : Tree}, t.isPlain = true → P t
  prefixed : ∀ {operator : Tag} {operand other : Tree}, P (.prefixOp operator operand) → P (.prefixOp operator other)
  infixed : ∀ {operator : Tag} {left right other : Tree},
    P (.infixOp operator left right) → P (.infixOp operator left other)

namespace OfCalls

variable {P : Tree → Prop} {t left right : Tree}

/-- A plain tree over trees that have the property everywhere. -/
theorem each_plain (calls : OfCalls P) (plain : t.isPlain = true) (each : ∀ child ∈ t.children, child.Each P) :
    t.Each P :=
  each_iff.2 ⟨calls.plain plain, each⟩

theorem each_attachBody? (calls : OfCalls P) {tag : Tag} {body : Tree} (each : left.Each P) (behind : body.Each P)
    (attached : attachBody? tag body left = some t) : t.Each P := by
  fun_induction attachBody? tag body left generalizing t with
  | case1 =>
    cases attached
    exact calls.each_plain rfl (by simpa [children] using ⟨each.child (List.mem_singleton_self _), behind⟩)
  | case2 operator operand plain ih =>
    obtain ⟨inner, found, rfl⟩ := Option.map_eq_some_iff.1 attached
    have inner := ih (each.child (List.mem_singleton_self _)) found
    exact each_iff.2 ⟨calls.prefixed (each _ .root), by simpa [children] using inner⟩
  | case3 function argument span ih =>
    obtain ⟨inner, found, rfl⟩ := Option.map_eq_some_iff.1 attached
    have inner := ih (each.child (by simp [children])) found
    exact calls.each_plain rfl (by simpa [children] using ⟨each.child (by simp [children]), inner⟩)
  | case4 operator first second ih =>
    obtain ⟨inner, found, rfl⟩ := Option.map_eq_some_iff.1 attached
    have inner := ih (each.child (by simp [children])) found
    exact each_iff.2
      ⟨calls.infixed (each _ .root), by simpa [children] using ⟨each.child (by simp [children]), inner⟩⟩
  | case5 => cases attached

theorem each_separate (calls : OfCalls P) {reduction : Reduction} (each : left.Each P) (behind : right.Each P) :
    (separate reduction left right).Each P := by
  have items : ∀ item ∈ left :: (itemsOf reduction right).getD [right], item.Each P := by
    refine List.forall_mem_cons.2 ⟨each, ?_⟩
    cases chain : itemsOf reduction right with
    | none => simpa using behind
    | some items =>
      have same : right.children = items := by
        unfold itemsOf at chain
        split at chain <;> cases chain <;> rfl
      exact fun item inside => behind.child (same ▸ inside)
  cases reduction <;> exact calls.each_plain rfl items

theorem each_ofInfix (calls : OfCalls P) {reduction : Reduction} {tag : Tag} (each : left.Each P)
    (behind : right.Each P) (called : reduction.isCalled = true → P (.infixOp tag left right)) :
    (ofInfix reduction tag left right).Each P := by
  have both : ∀ child ∈ [left, right], child.Each P := by simpa using ⟨each, behind⟩
  cases reduction with
  | sequence | comma =>
    rw [ofInfix]
    exact calls.each_separate each behind
  | lambda =>
    rw [ofInfix, abstract]
    cases attached : attachBody? tag right left with
    | none => exact calls.each_plain rfl both
    | some t => exact calls.each_attachBody? each behind attached
  | apply | define | asPattern => exact calls.each_plain rfl both
  | _ => exact each_iff.2 ⟨called rfl, both⟩

theorem each_ofBracket (calls : OfCalls P) {kind : BracketKind} {opening closing : Tag} {content : Option Tree}
    {sectioned : Bool} (each : ∀ t ∈ content, t.Each P)
    (called : kind = .user → ∀ inner, P (.bracket opening closing inner))
    (made : ofBracket kind opening closing content sectioned = .ok t) : t.Each P := by
  have listed : ∀ item ∈ listed content, item.Each P := by
    cases content with
    | none => simp [Tree.listed]
    | some t =>
      cases t with
      | comma => exact fun item inside => (each _ rfl).child inside
      | _ => exact fun item inside => List.mem_singleton.1 inside ▸ each _ rfl
  have alone : ∀ span, (unit span).Each P := fun span => calls.each_plain rfl (by simp [children])
  cases kind with
  | paren =>
    cases made
    have placed {body : Tree} (whole : body.Each P) (span : Span) :
        (if sectioned then sectionOf body span else body).Each P := by
      cases sectioned
      · exact whole
      · exact calls.each_plain rfl (by simpa [children] using whole)
    cases content with
    | none => exact placed (alone _) _
    | some t =>
      cases t with
      | comma items =>
        have whole : (tuple items (opening.span.merge closing.span)).Each P :=
          calls.each_plain rfl fun item inside => (each _ rfl).child inside
        exact placed whole _
      | _ => exact placed (each _ rfl) _
  | square | brace =>
    cases made
    exact calls.each_plain rfl listed
  | block | file =>
    cases content with
    | none =>
      cases made
      exact calls.each_plain rfl (by simp [children])
    | some t =>
      cases t with
      | comma => cases made
      | _ =>
        cases made
        exact each _ rfl
  | user =>
    cases made
    refine each_iff.2 ⟨called rfl _, ?_⟩
    cases content with
    | none => simpa [children] using alone _
    | some t => simpa [children] using each t rfl

end OfCalls

end Tree

end MixfixLambda
