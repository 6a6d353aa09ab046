import MixfixLambda.Proofs.Tree.Parts
import MixfixLambda.Proofs.Tree.Standard

/-!
# Where commas stand

Items between commas are for brackets to list. What is left of them elsewhere stands at the end of a chain of
statements, whose items are not looked at, or next to an operator that is as loose as a comma.
-/
namespace MixfixLambda.Tree

variable {loose loose' : String → Prop} {t left right : Tree}

/-- Items between commas are no child of the root, unless brackets have been declared for them, they are the last of
several statements, or an operator has been declared that is looser. -/
def Admits (loose : String → Prop) : Tree → Prop
  | .bracket .. => True
  | .sequence items _ => ∀ item ∈ items.dropLast, item.isComma = false
  | .infixOp operator left right => left.isComma = true ∨ right.isComma = true → loose operator.text
  | .prefixOp operator operand | .postfixOp operator operand => operand.isComma = true → loose operator.text
  | .mixfix parts operands => (∃ operand ∈ operands, operand.isComma = true) → ∃ part ∈ parts, loose part.text
  | .lambda _ pattern body => (pattern.isComma = true → loose "\\") ∧ body.isComma = false
  | t => ∀ child ∈ t.children, child.isComma = false

theorem Admits.mono (admits : t.Admits loose) (more : ∀ s, loose s → loose' s) : t.Admits loose' := by
  cases t with
  | infixOp | prefixOp | postfixOp => exact fun comma => more _ (admits comma)
  | mixfix =>
    intro comma
    obtain ⟨part, inside, last⟩ := admits comma
    exact ⟨part, inside, more _ last⟩
  | lambda => exact ⟨fun comma => more _ (admits.1 comma), admits.2⟩
  | _ => exact admits

theorem Each.mono {P Q : Tree → Prop} (each : t.Each P) (weaker : ∀ x, P x → Q x) : t.Each Q :=
  fun x part => weaker x (each x part)

theorem Each.child {P : Tree → Prop} {child : Tree} (each : t.Each P) (inside : child ∈ t.children) : child.Each P :=
  (each_iff.1 each).2 child inside

theorem Each.part {P : Tree → Prop} {x : Tree} (each : t.Each P) (inside : Part x t) : x.Each P := by
  induction inside with
  | root => exact each
  | under member _ ih => exact ih (each.child member)

theorem each_alone {P : Tree → Prop} (root : P t) (alone : t.children = []) : t.Each P :=
  each_iff.2 ⟨root, by simp [alone]⟩

theorem each_attachBody? {tag : Tag} {body : Tree} (each : left.Each (Admits loose)) (behind : body.Each (Admits loose))
    (plain : body.isComma = false) (attached : attachBody? tag body left = some t) :
    t.Each (Admits loose) ∧ t.isComma = false := by
  fun_induction attachBody? tag body left generalizing t with
  | case1 operator operand marker =>
    cases attached
    have marked : operator.text = "\\" := beq_iff_eq.1 marker
    refine ⟨each_iff.2 ⟨⟨fun comma => marked ▸ each _ .root comma, plain⟩, ?_⟩, rfl⟩
    simp only [children, List.forall_mem_cons, List.not_mem_nil, false_implies, implies_true, and_true]
    exact ⟨each.child (List.mem_cons_self ..), behind⟩
  | case2 operator operand other ih =>
    obtain ⟨inner, found, rfl⟩ := Option.map_eq_some_iff.1 attached
    obtain ⟨within, free⟩ := ih (each.child (List.mem_cons_self ..)) found
    refine ⟨each_iff.2 ⟨fun comma => absurd comma (Bool.eq_false_iff.1 free), ?_⟩, rfl⟩
    simpa [children] using within
  | case3 function argument span ih =>
    obtain ⟨inner, found, rfl⟩ := Option.map_eq_some_iff.1 attached
    obtain ⟨within, free⟩ := ih (each.child (by simp [children])) found
    have first : function.isComma = false := each _ .root _ (List.mem_cons_self ..)
    refine ⟨each_iff.2 ⟨?_, ?_⟩, rfl⟩
    · simpa [Admits, children] using ⟨first, free⟩
    · simpa [children] using ⟨each.child (List.mem_cons_self ..), within⟩
  | case4 operator first second ih =>
    obtain ⟨inner, found, rfl⟩ := Option.map_eq_some_iff.1 attached
    obtain ⟨within, free⟩ := ih (each.child (by simp [children])) found
    refine ⟨each_iff.2 ⟨fun comma => ?_, ?_⟩, rfl⟩
    · exact each _ .root (.inl (comma.resolve_right (Bool.eq_false_iff.1 free)))
    · simpa [children] using ⟨each.child (List.mem_cons_self ..), within⟩
  | case5 => cases attached

theorem each_abstract {tag : Tag} (each : left.Each (Admits loose)) (behind : right.Each (Admits loose))
    (first : left.isComma = false) (second : right.isComma = false) :
    (abstract tag left right).Each (Admits loose) ∧ (abstract tag left right).isComma = false := by
  unfold abstract
  cases attached : attachBody? tag right left with
  | some t => exact each_attachBody? each behind second attached
  | none =>
    refine ⟨each_iff.2 ⟨⟨fun comma => absurd comma (Bool.eq_false_iff.1 first), second⟩, ?_⟩, rfl⟩
    simpa [children] using ⟨each, behind⟩

/-- Only the last item of a chain may be items between commas, and only of one of statements. -/
theorem each_separate {reduction : Reduction} (separates : reduction = .sequence ∨ reduction = .comma)
    (each : left.Each (Admits loose)) (behind : right.Each (Admits loose)) (first : left.isComma = false) :
    (separate reduction left right).Each (Admits loose) := by
  have items : ∀ item ∈ (itemsOf reduction right).getD [right], item.Each (Admits loose) := by
    cases chain : itemsOf reduction right with
    | none => simpa using behind
    | some items =>
      have same : right.children = items := by
        unfold itemsOf at chain
        split at chain <;> cases chain <;> rfl
      exact fun item inside => behind.child (same ▸ inside)
  have all : ∀ item ∈ left :: (itemsOf reduction right).getD [right], item.Each (Admits loose) :=
    List.forall_mem_cons.2 ⟨each, items⟩
  have statements : ∀ item ∈ (left :: (itemsOf .sequence right).getD [right]).dropLast, item.isComma = false := by
    cases right with
    | sequence rest =>
      cases rest with
      | nil => simp [itemsOf]
      | cons item rest =>
        simp only [itemsOf, Option.getD_some, List.dropLast_cons_cons, List.forall_mem_cons]
        exact ⟨first, behind _ .root⟩
    | _ => simpa [itemsOf] using first
  have listed : ∀ item ∈ left :: (itemsOf .comma right).getD [right], item.isComma = false := by
    rw [List.forall_mem_cons]
    refine ⟨first, ?_⟩
    cases right with
    | comma rest => exact behind _ .root
    | _ => simp [itemsOf, isComma]
  rcases separates with rfl | rfl
  · exact each_iff.2 ⟨statements, all⟩
  · exact each_iff.2 ⟨listed, all⟩

/-- What an operator makes of its operands, where those that are items between commas stand next to a loose operator
or behind a separator. -/
theorem each_ofInfix {reduction : Reduction} {tag : Tag} (each : left.Each (Admits loose))
    (behind : right.Each (Admits loose)) (first : left.isComma = true → reduction = .operator ∧ loose tag.text)
    (second : right.isComma = true →
      reduction = .operator ∧ loose tag.text ∨ reduction = .sequence ∨ reduction = .comma) :
    (ofInfix reduction tag left right).Each (Admits loose) ∧
      ((ofInfix reduction tag left right).isComma = true → reduction = .comma) := by
  have plain : reduction ≠ .operator → left.isComma = false := fun other =>
    Bool.eq_false_iff.2 fun comma => other (first comma).1
  have plain' : reduction ≠ .operator → reduction ≠ .sequence → reduction ≠ .comma → right.isComma = false := by
    intro operator sequence comma
    refine Bool.eq_false_iff.2 fun found => ?_
    rcases second found with ⟨same, -⟩ | same | same
    · exact operator same
    · exact sequence same
    · exact comma same
  have both : ∀ child ∈ [left, right], child.Each (Admits loose) := by
    simpa using ⟨each, behind⟩
  cases reduction with
  | sequence => exact ⟨each_separate (.inl rfl) each behind (plain nofun), nofun⟩
  | comma => exact ⟨each_separate (.inr rfl) each behind (plain nofun), fun _ => rfl⟩
  | lambda =>
    have ⟨whole, free⟩ : (abstract tag left right).Each (Admits loose) ∧ (abstract tag left right).isComma = false :=
      each_abstract each behind (plain nofun) (plain' nofun nofun nofun)
    exact ⟨whole, fun comma => absurd comma (Bool.eq_false_iff.1 free)⟩
  | apply | define | asPattern =>
    have none : ∀ child ∈ [left, right], child.isComma = false := by
      simpa using ⟨plain nofun, plain' nofun nofun nofun⟩
    exact ⟨each_iff.2 ⟨none, both⟩, nofun⟩
  | operator =>
    refine ⟨each_iff.2 ⟨fun comma => ?_, both⟩, nofun⟩
    rcases comma with comma | comma
    · exact (first comma).2
    · exact ((second comma).resolve_right nofun).2
  | _ =>
    refine ⟨each_iff.2 ⟨fun comma => ?_, both⟩, nofun⟩
    rw [plain nofun, plain' nofun nofun nofun] at comma
    cases comma <;> contradiction

theorem each_listed {content : Option Tree} (each : ∀ t ∈ content, t.Each (Admits loose)) :
    ∀ item ∈ listed content, item.Each (Admits loose) ∧ item.isComma = false := by
  cases content with
  | none => simp [listed]
  | some t =>
    have whole := each t rfl
    cases t with
    | comma items span => exact fun item inside => ⟨whole.child inside, whole _ .root item inside⟩
    | _ => exact fun item inside => List.mem_singleton.1 inside ▸ ⟨whole, rfl⟩

/-- Brackets list the items between commas, and those of lines refuse them. -/
theorem each_ofBracket {kind : BracketKind} {opening closing : Tag} {content : Option Tree} {sectioned : Bool}
    (each : ∀ t ∈ content, t.Each (Admits loose)) (made : ofBracket kind opening closing content sectioned = .ok t) :
    t.Each (Admits loose) ∧ t.isComma = false := by
  have items := each_listed each
  cases kind with
  | paren =>
    cases made
    have placed {body : Tree} (whole : body.Each (Admits loose)) (plain : body.isComma = false) (span : Span) :
        (if sectioned then sectionOf body span else body).Each (Admits loose) ∧
          (if sectioned then sectionOf body span else body).isComma = false := by
      cases sectioned
      · exact ⟨whole, plain⟩
      · exact ⟨each_iff.2 ⟨by simpa [Admits, children] using plain, by simpa [children] using whole⟩, rfl⟩
    cases content with
    | none => exact placed (each_alone (by simp [Admits, children]) rfl) rfl _
    | some t =>
      have whole := each t rfl
      cases t with
      | comma inner span =>
        have whole (place : Span) : (tuple inner place).Each (Admits loose) :=
          each_iff.2 ⟨whole (.comma inner span) .root, fun item inside => whole.child inside⟩
        exact placed (whole _) rfl _
      | _ => exact placed whole rfl _
  | square =>
    cases made
    exact ⟨each_iff.2 ⟨fun item inside => (items item inside).2, fun item inside => (items item inside).1⟩, rfl⟩
  | brace =>
    cases made
    exact ⟨each_iff.2 ⟨fun item inside => (items item inside).2, fun item inside => (items item inside).1⟩, rfl⟩
  | block | file =>
    cases content with
    | none =>
      cases made
      exact ⟨each_alone (by simp [Admits]) rfl, rfl⟩
    | some t =>
      have whole := each t rfl
      cases t <;> cases made <;> exact ⟨whole, rfl⟩
  | user =>
    cases made
    refine ⟨each_iff.2 ⟨trivial, ?_⟩, rfl⟩
    cases content with
    | none => simpa [children] using each_alone (by simp [Admits, children]) rfl
    | some t => simpa [children] using each t rfl

/-! ### Commas that are left -/

/-- The brackets that a source declares, around anything. -/
def isBracket : Tree → Bool
  | .bracket .. => true
  | _ => false

/-- Items between commas are left somewhere that no brackets have been declared for, or a chain that continues a
comma. -/
inductive Stray : Tree → Prop
  | items {t child : Tree} (inside : child ∈ t.children) (comma : child.isComma = true) (other : t.isBracket = false) :
      Stray t
  | part {parts : List Tag} {operands : List Tree} (inside : ∃ part ∈ parts, part.text = ",") :
      Stray (.mixfix parts operands)
  | under {t child : Tree} (inside : child ∈ t.children) (stray : Stray child) : Stray t

/-- What is left in a tree is left in every other tree with its items. -/
theorem Stray.moved {t t' : Tree} (stray : t.Stray) (other : t'.isBracket = false) (keeps : t.children ⊆ t'.children)
    (chain : ∀ parts operands, t ≠ .mixfix parts operands) : t'.Stray := by
  cases stray with
  | items inside comma => exact .items (keeps inside) comma other
  | part => exact absurd rfl (chain _ _)
  | under inside stray => exact .under (keeps inside) stray

theorem not_stray_alone (alone : t.children = []) (chain : ∀ parts operands, t ≠ .mixfix parts operands) :
    ¬t.Stray := by
  rintro (⟨inside, -⟩ | - | ⟨inside, -⟩)
  · rw [alone] at inside
    cases inside
  · exact chain _ _ rfl
  · rw [alone] at inside
    cases inside

/-- A new last child keeps what is left. -/
theorem Stray.last {t t' child child' : Tree} (front : List Tree) (stray : t.Stray)
    (children : t.children = front ++ [child]) (children' : t'.children = front ++ [child'])
    (other : t'.isBracket = false) (chain : ∀ parts operands, t ≠ .mixfix parts operands)
    (plain : child.isComma = false) (keeps : child.Stray → child'.Stray) : t'.Stray := by
  cases stray with
  | items inside comma =>
    rw [children, List.mem_append, List.mem_singleton] at inside
    rcases inside with inside | rfl
    · exact .items (children' ▸ List.mem_append_left _ inside) comma other
    · rw [plain] at comma
      cases comma
  | part => exact absurd rfl (chain _ _)
  | under inside stray =>
    rw [children, List.mem_append, List.mem_singleton] at inside
    rcases inside with inside | rfl
    · exact .under (children' ▸ List.mem_append_left _ inside) stray
    · exact .under (children' ▸ List.mem_append_right _ (List.mem_singleton_self _)) (keeps stray)

theorem stray_attachBody? {tag : Tag} {body : Tree} (attached : attachBody? tag body left = some t) :
    left.isComma = false ∧ (left.Stray → t.Stray) ∧ (body.isComma = true ∨ body.Stray → t.Stray) := by
  fun_induction attachBody? tag body left generalizing t with
  | case1 operator operand marker =>
    cases attached
    have last : body ∈ (lambda tag operand body).children := by simp [children]
    exact ⟨rfl, fun stray => stray.moved rfl (by simp [children]) (by simp),
      fun behind => behind.elim (fun comma => .items last comma rfl) (.under last)⟩
  | case2 operator operand other ih =>
    obtain ⟨inner, found, rfl⟩ := Option.map_eq_some_iff.1 attached
    obtain ⟨plain, keeps, behind⟩ := ih found
    exact ⟨rfl, fun stray => stray.last [] rfl rfl rfl (by simp) plain keeps,
      fun body => .under (by simp [children]) (behind body)⟩
  | case3 function argument span ih =>
    obtain ⟨inner, found, rfl⟩ := Option.map_eq_some_iff.1 attached
    obtain ⟨plain, keeps, behind⟩ := ih found
    exact ⟨rfl, fun stray => stray.last [function] rfl rfl rfl (by simp) plain keeps,
      fun body => .under (by simp [children]) (behind body)⟩
  | case4 operator first second ih =>
    obtain ⟨inner, found, rfl⟩ := Option.map_eq_some_iff.1 attached
    obtain ⟨plain, keeps, behind⟩ := ih found
    exact ⟨rfl, fun stray => stray.last [first] rfl rfl rfl (by simp) plain keeps,
      fun body => .under (by simp [children]) (behind body)⟩
  | case5 => cases attached

theorem stray_pair {first second : Tree} (children : t.children = [first, second]) (other : t.isBracket = false)
    (found : first.isComma = true ∨ first.Stray ∨ second.isComma = true ∨ second.Stray) : t.Stray := by
  have inside : first ∈ t.children ∧ second ∈ t.children := by simp [children]
  rcases found with comma | stray | comma | stray
  · exact .items inside.1 comma other
  · exact .under inside.1 stray
  · exact .items inside.2 comma other
  · exact .under inside.2 stray

theorem stray_separate (reduction : Reduction) (found : left.isComma = true ∨ left.Stray ∨ right.Stray) :
    (separate reduction left right).Stray := by
  have node : (separate reduction left right).isBracket = false ∧
      (separate reduction left right).children = left :: (itemsOf reduction right).getD [right] := by
    cases reduction <;> exact ⟨rfl, rfl⟩
  have first : left ∈ (separate reduction left right).children := node.2 ▸ List.mem_cons_self ..
  rcases found with comma | stray | stray
  · exact .items first comma node.1
  · exact .under first stray
  · cases chain : itemsOf reduction right with
    | none =>
      rw [chain] at node
      exact .under (node.2 ▸ List.mem_cons_of_mem _ (List.mem_singleton_self _)) stray
    | some items =>
      rw [chain] at node
      have same : right.children = items ∧ ∀ parts operands, right ≠ .mixfix parts operands := by
        unfold itemsOf at chain
        split at chain <;> cases chain <;> exact ⟨rfl, nofun⟩
      exact stray.moved node.1 (by rw [node.2, same.1]; exact List.subset_cons_self _ _) same.2

/-- An operator keeps the commas that are left in its operands. Those that its right operand consists of are left in
the new tree, unless it is listed with more items. -/
theorem stray_ofInfix {reduction : Reduction} {tag : Tag} :
    (left.isComma = true ∨ left.Stray ∨ right.Stray → (ofInfix reduction tag left right).Stray) ∧
      (right.isComma = true →
        (ofInfix reduction tag left right).Stray ∨ (ofInfix reduction tag left right).isComma = true) := by
  have pair : ∀ {t : Tree}, t.children = [left, right] → t.isBracket = false →
      (left.isComma = true ∨ left.Stray ∨ right.Stray → t.Stray) ∧
        (right.isComma = true → t.Stray ∨ t.isComma = true) := by
    intro t children other
    refine ⟨fun found => stray_pair children other ?_, fun comma => .inl (stray_pair children other ?_)⟩
    · exact found.imp_right (Or.imp_right .inr)
    · exact .inr (.inr (.inl comma))
  cases reduction with
  | comma => exact ⟨stray_separate .comma, fun _ => .inr rfl⟩
  | sequence =>
    refine ⟨stray_separate .sequence, fun comma => .inl ?_⟩
    cases right with
    | comma => exact .items (List.mem_cons_of_mem _ (List.mem_singleton_self _)) comma rfl
    | _ => cases comma
  | lambda =>
    have same : ofInfix .lambda tag left right = abstract tag left right := rfl
    rw [same, abstract]
    cases attached : attachBody? tag right left with
    | none => exact pair (t := .lambda tag left right) rfl rfl
    | some t =>
      obtain ⟨plain, keeps, behind⟩ := stray_attachBody? attached
      refine ⟨?_, fun comma => .inl (behind (.inl comma))⟩
      rintro (comma | stray | stray)
      · rw [plain] at comma
        cases comma
      · exact keeps stray
      · exact behind (.inr stray)
  | _ => exact pair rfl rfl

/-- A pair of brackets keeps the commas that are left in its content. -/
theorem stray_ofBracket {kind : BracketKind} {opening closing : Tag} {content : Option Tree} {sectioned : Bool}
    {inner : Tree} (here : content = some inner) (stray : inner.Stray)
    (made : ofBracket kind opening closing content sectioned = .ok t) : t.Stray := by
  subst here
  have items : ∀ {t' : Tree}, t'.isBracket = false → t'.children = listed (some inner) → t'.Stray := by
    intro t' other children
    cases inner with
    | comma items span => exact stray.moved other (by rw [children]; exact List.Subset.refl _) nofun
    | _ => exact .under (by rw [children]; exact List.mem_singleton_self _) stray
  cases kind with
  | paren =>
    cases made
    have placed {body : Tree} (stray : body.Stray) (span : Span) :
        (if sectioned then sectionOf body span else body).Stray := by
      cases sectioned
      · exact stray
      · exact .under (List.mem_singleton_self _) stray
    cases inner with
    | comma => exact placed (items rfl rfl) _
    | _ => exact placed stray _
  | square =>
    cases made
    exact items rfl rfl
  | brace =>
    cases made
    exact items rfl rfl
  | block | file => cases inner <;> cases made <;> exact stray
  | user =>
    cases made
    exact .under (List.mem_singleton_self _) stray

end MixfixLambda.Tree
