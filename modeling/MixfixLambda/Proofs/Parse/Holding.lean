import MixfixLambda.Proofs.Parse.Commas
import MixfixLambda.Proofs.Tree.Roots

/-!
# Properties of what the parser holds

A property of the operators that wait and one of the trees that are held stay true, however operators are reduced,
if the trees that are called by a waiting operator have the second one. What is left to each token is the tree or the
operator that it adds.
-/
namespace MixfixLambda.Parser

/-- Every operator that waits has one property, and every tree that is held has the other one. -/
structure Holding (M : Pending → List Pending → Prop) (P : Tree → Prop) (p : Parser) : Prop where
  pending : Stackwise M p.pending
  trees : ∀ x, p.Says x → P x

/-- The trees that a reduction can make of the operators that wait have the property. -/
structure Calls (P : Tree → Prop) (p : Parser) : Prop where
  chain : ∀ {links rest : List Pending} {lefts operands : List Tree}, p.pending = links ++ rest →
    Collects links lefts → (∀ o ∈ links.head?, o.rule.prior.isSome = true ∧ o.rule.isOpener = false) →
      P (.mixfix (links.reverse.map Pending.tag) operands)
  declares : ∀ {kind : DeclarationKind} {keyword : Tag} {right : Tree} {d : Declaration}, right.Each P →
    Declaration.ofOperand kind keyword right = .ok d → P (.declaration d)
  leads : ∀ {o : Pending} {operand : Tree}, o ∈ p.pending → o.rule.fixity = .prefixOp → P (.prefixOp o.tag operand)
  infixed : ∀ {o : Pending} {left right : Tree}, o ∈ p.pending → o.rule.isOpener = false →
    o.rule.reduction.isCalled = true → P (.infixOp o.tag left right)
  value : ∀ {o : Pending} {below : List Pending}, p.pending = o :: below → o.missingLeft = true → P (.name o.tag)

namespace Holding

variable {M : Pending → List Pending → Prop} {P : Tree → Prop} {p q : Parser} {o top : Pending}
  {below : List Pending} {t right : Tree}

theorem operand (holding : Holding M P p) : ∀ t ∈ p.operand, t.Each P :=
  fun t made x part => holding.trees x (.inl ⟨t, made, part⟩)

theorem left (holding : Holding M P p) (inside : o ∈ p.pending) : ∀ t ∈ o.left, t.Each P :=
  fun t held x part => holding.trees x (.inr ⟨o, inside, t, held, part⟩)

/-- A reduction makes one tree of trees that are held. -/
theorem reduct (holding : Holding M P p) (ofCalls : Tree.OfCalls P) (calls : Calls P p) (stack : Stacked p.pending)
    (here : p.pending = top :: below) (operand : p.operand = some right) (operator : top.rule.isOpener = false)
    (reduct : Reduct p top below right q) : ∀ t ∈ q.operand, t.Each P := by
  have inside : top ∈ p.pending := here ▸ List.mem_cons_self ..
  have each : right.Each P := holding.operand right operand
  rintro t made
  cases reduct with
  | @chain links rest lefts continues split collects =>
    cases made
    have split' := here.trans split
    have lasts : ∀ o ∈ links.head?, o.rule.prior.isSome = true ∧ o.rule.isOpener = false := by
      intro o found
      cases links with
      | nil => cases found
      | cons link links =>
        cases found
        obtain ⟨rfl, -⟩ := List.cons.inj split
        exact ⟨continues, operator⟩
    refine Tree.each_iff.2 ⟨calls.chain split' collects lasts, fun child member => ?_⟩
    rcases List.mem_append.1 member with member | member
    · rw [split'] at stack
      intro x part
      obtain ⟨o, inside, kept⟩ := (collects.kept stack).1 ⟨child, member, part⟩
      exact holding.trees x (.inr ⟨o, split' ▸ List.mem_append_left _ inside, kept⟩)
    · exact List.mem_singleton.1 member ▸ each
  | erase =>
    cases made
    exact each
  | declare _ _ _ read =>
    cases made
    exact Tree.each_alone (calls.declares each read) rfl
  | leading _ leads =>
    cases made
    exact Tree.each_iff.2 ⟨calls.leads inside leads, by simpa [Tree.children] using each⟩
  | headless =>
    cases made
    exact ofCalls.each_ofInfix (Tree.each_alone (ofCalls.plain rfl) rfl) each (calls.infixed inside operator)
  | infixed _ _ _ left =>
    cases made
    exact ofCalls.each_ofInfix (holding.left inside _ left) each (calls.infixed inside operator)

/-- Nothing that happens inside a bracket brings in trees without the property. -/
theorem edit (holding : Holding M P p) (unmarked : Unmarked M) (ofCalls : Tree.OfCalls P) (calls : Calls P p)
    (stack : Stacked p.pending) (edit : Edit p q) : Holding M P q := by
  suffices operand : ∀ t ∈ q.operand, t.Each P by
    refine ⟨edit.stackwise unmarked holding.pending, fun x said => ?_⟩
    rcases said with ⟨t, same, part⟩ | kept
    · exact operand t same x part
    · exact holding.trees x (.inr (edit.kept kept))
  cases edit with
  | reduce here operand operator reduct => exact holding.reduct ofCalls calls stack here operand operator reduct
  | separator here => exact holding.left (here ▸ List.mem_cons_self ..)
  | operator here _ _ missing =>
    rintro _ ⟨⟩
    exact Tree.each_alone (calls.value here missing) rfl
  | gap =>
    rintro _ ⟨⟩
    exact Tree.each_alone (ofCalls.plain rfl) rfl

/-- A new operator takes the operand read last to its left. -/
theorem adds (holding : Holding M P p) (pending : q.pending = o :: p.pending) (left : o.left = p.operand)
    (empty : q.operand = none) (waits : M o p.pending) : Holding M P q where
  pending := pending ▸ .cons waits holding.pending
  trees x said := by
    unfold Says at said
    rw [empty, pending, kept_cons, left] at said
    exact holding.trees x (said.resolve_left (by simp))

/-- A new operand. -/
theorem put (holding : Holding M P p) (pending : q.pending = p.pending) (operand : q.operand = some t)
    (each : t.Each P) : Holding M P q where
  pending := pending ▸ holding.pending
  trees x said := by
    unfold Says at said
    rw [pending, operand] at said
    rcases said with ⟨_, ⟨⟩, part⟩ | kept
    · exact each x part
    · exact holding.trees x (.inr kept)

/-- A bracket with its content becomes the operand. -/
theorem close (holding : Holding M P p) (here : p.pending = top :: below) (pending : q.pending = below)
    (operand : q.operand = some t) (each : t.Each P) : Holding M P q := by
  have waits := holding.pending
  rw [here] at waits
  refine ⟨pending ▸ waits.tail, fun x said => ?_⟩
  unfold Says at said
  rw [pending, operand] at said
  rcases said with ⟨_, ⟨⟩, part⟩ | kept
  · exact each x part
  · exact holding.trees x (.inr (here ▸ kept_cons.2 (.inr kept)))

/-- One operator waits, and no tree is held. -/
theorem start (pending : p.pending = [o]) (left : o.left = none) (empty : p.operand = none) (waits : M o []) :
    Holding M P p where
  pending := pending ▸ .cons waits .nil
  trees x said := by
    unfold Says at said
    rw [empty, pending, kept_cons, left] at said
    simp [Kept] at said

end Holding

end MixfixLambda.Parser
