import MixfixLambda.Proofs.Parse.Declaration
import MixfixLambda.Proofs.Parse.Step

/-!
# The operators that wait

What holds of every operator that waits and of the operators under it is kept by everything that happens
inside a bracket, since operators are only taken off from above. In particular a reduction never takes a
bracket away, and no declaration that was made is lost from the trees that the parser holds.
-/
namespace MixfixLambda

namespace Parser

variable {p q : Parser} {o top : Pending} {above below rest : List Pending} {right t : Tree}

/-- The brackets that are open, newest first. -/
def opened (pending : List Pending) : List Rule :=
  (pending.map Pending.rule).filter Rule.isOpener

@[simp]
theorem opened_nil : opened [] = [] :=
  rfl

theorem opened_opener (opens : o.rule.isOpener = true) (below : List Pending) :
    opened (o :: below) = o.rule :: opened below := by
  simp [opened, opens]

theorem opened_operator (operator : o.rule.isOpener = false) (below : List Pending) :
    opened (o :: below) = opened below := by
  simp [opened, operator]

theorem rule_markSection (pending : List Pending) :
    (markSection pending).map Pending.rule = pending.map Pending.rule := by
  induction pending with
  | nil => rfl
  | cons o below ih =>
    unfold markSection
    split
    · rfl
    · rw [List.map_cons, List.map_cons, ih]

@[simp]
theorem opened_markSection (pending : List Pending) : opened (markSection pending) = opened pending := by
  rw [opened, rule_markSection]
  rfl

/-- Every operator that waits has the property, together with those under it. -/
inductive Stackwise (P : Pending → List Pending → Prop) : List Pending → Prop
  | nil : Stackwise P []
  | cons {o : Pending} {below : List Pending} (holds : P o below) (rest : Stackwise P below) :
      Stackwise P (o :: below)

/-- The property does not look at the marks of sections. -/
structure Unmarked (P : Pending → List Pending → Prop) : Prop where
  under : ∀ {o below}, P o below → P o (markSection below)
  here : ∀ {o below}, o.rule.isOpener = true → P o below → P { o with sectioned := true } below

variable {P Q : Pending → List Pending → Prop}

theorem Stackwise.head (stack : Stackwise P (o :: below)) : P o below := by
  cases stack
  assumption

theorem Stackwise.tail (stack : Stackwise P (o :: below)) : Stackwise P below := by
  cases stack
  assumption

theorem Stackwise.suffix (stack : Stackwise P (above ++ below)) : Stackwise P below := by
  induction above with
  | nil => exact stack
  | cons o above ih => exact ih stack.tail

theorem Stackwise.mono (stack : Stackwise P below) (weaker : ∀ o rest, P o rest → Q o rest) :
    Stackwise Q below := by
  induction stack with
  | nil => exact .nil
  | cons holds _ ih => exact .cons (weaker _ _ holds) ih

theorem Stackwise.markSection (unmarked : Unmarked P) (stack : Stackwise P below) :
    Stackwise P (markSection below) := by
  induction stack with
  | nil => exact .nil
  | cons holds rest ih =>
    unfold Parser.markSection
    split
    · next opens => exact .cons (unmarked.here opens holds) rest
    · exact .cons (unmarked.under holds) ih

theorem Reduct.stackwise (unmarked : Unmarked P) (reduct : Reduct p top below right q)
    (stack : Stackwise P (top :: below)) : Stackwise P q.pending := by
  cases reduct with
  | chain _ split _ =>
    rw [split] at stack
    exact stack.suffix
  | headless => exact stack.tail.markSection unmarked
  | _ => exact stack.tail

/-- Nothing that happens inside a bracket adds an operator. -/
theorem Edit.stackwise (unmarked : Unmarked P) (edit : Edit p q) (stack : Stackwise P p.pending) :
    Stackwise P q.pending := by
  cases edit with
  | reduce here _ _ reduct =>
    rw [here] at stack
    exact reduct.stackwise unmarked stack
  | separator here | operator here =>
    rw [here] at stack
    exact stack.tail
  | gap here =>
    rw [here] at stack
    exact .cons (unmarked.under stack.head) (stack.tail.markSection unmarked)

/-! ### The shape of the stack -/

/-- An infix operator that does not lack it has a left operand, and nothing else has. A chain lies on the
part that it continues. -/
structure Fits (o : Pending) (below : List Pending) : Prop where
  left : o.left.isSome = true ↔ o.rule.fixity = .infixOp ∧ o.missingLeft = false
  continues : ∀ prior, o.rule.prior = some prior → o.left.isSome = true →
    ∃ previous ∈ below.head?, previous.rule.isOpener = false ∧ previous.rule.symbol = prior

theorem fits_unmarked : Unmarked Fits where
  under {o below} fits := by
    refine ⟨fits.left, fun prior continues some => ?_⟩
    obtain ⟨previous, first, operator, same⟩ := fits.continues prior continues some
    obtain ⟨rest, rfl⟩ := List.head?_eq_some_iff.1 first
    refine ⟨previous, ?_, operator, same⟩
    simp [markSection, operator]
  here _ fits := ⟨fits.left, fits.continues⟩

/-- The operators that wait fit those under them. -/
def Stacked (pending : List Pending) : Prop :=
  Stackwise Fits pending

/-- No part of a chain is a bracket. -/
theorem Collects.operators {links : List Pending} {lefts : List Tree} (collects : Collects links lefts)
    (stack : Stackwise Fits (links ++ rest)) (operator : ∀ o ∈ links.head?, o.rule.isOpener = false) :
    ∀ o ∈ links, o.rule.isOpener = false := by
  induction collects with
  | first | infixed => exact fun o inside => List.mem_singleton.1 inside ▸ operator _ rfl
  | @next o previous left lefts links prior continues operand same collects ih =>
    have closed : previous.rule.isOpener = false := by
      obtain ⟨other, first, closed, -⟩ := stack.head.continues prior continues (by rw [operand]; rfl)
      cases first
      exact closed
    refine List.forall_mem_cons.2 ⟨operator _ rfl, ih stack.tail fun o first => ?_⟩
    cases first
    exact closed

/-- What depends on the brackets that are open alone, and not on the marks of sections. -/
structure OfBrackets {α : Type} (f : List Pending → α) : Prop where
  operator : ∀ {o below}, o.rule.isOpener = false → f (o :: below) = f below
  marked : ∀ pending, f (markSection pending) = f pending

theorem opened_ofBrackets : OfBrackets opened where
  operator operator := opened_operator operator _
  marked := opened_markSection

variable {α : Type} {f : List Pending → α}

theorem OfBrackets.append (brackets : OfBrackets f) (operators : ∀ o ∈ above, o.rule.isOpener = false) :
    f (above ++ below) = f below := by
  induction above with
  | nil => rfl
  | cons o above ih =>
    rw [List.forall_mem_cons] at operators
    exact (brackets.operator operators.1).trans (ih operators.2)

theorem Reduct.brackets (ofBrackets : OfBrackets f) (reduct : Reduct p top below right q)
    (stack : Stackwise Fits (top :: below)) (operator : top.rule.isOpener = false) :
    f q.pending = f (top :: below) := by
  cases reduct with
  | @chain links rest lefts _ split collects =>
    rw [split] at stack ⊢
    refine (ofBrackets.append (collects.operators stack fun o first => ?_)).symm
    cases links with
    | nil => cases collects
    | cons first' links =>
      obtain ⟨rfl, -⟩ := List.cons.inj split
      cases first
      exact operator
  | headless => rw [ofBrackets.operator operator, ofBrackets.marked]
  | _ => rw [ofBrackets.operator operator]

/-- Nothing that happens inside a bracket takes one away, provided that no bracket is a separator. -/
theorem Edit.brackets (ofBrackets : OfBrackets f) (edit : Edit p q) (stack : Stacked p.pending)
    (separators : ∀ rule ∈ opened p.pending, rule.isSeparator = false) : f q.pending = f p.pending := by
  cases edit with
  | reduce here _ operator reduct =>
    rw [here] at stack ⊢
    exact reduct.brackets ofBrackets stack operator
  | @separator top below here _ separates =>
    rw [here] at separators ⊢
    refine (ofBrackets.operator (Bool.eq_false_iff.2 fun opens => ?_)).symm
    rw [opened_opener opens] at separators
    rw [separators _ (List.mem_cons_self ..)] at separates
    cases separates
  | operator here _ operator => rw [here, ofBrackets.operator operator]
  | gap here _ operator => rw [here, ofBrackets.operator operator, ofBrackets.operator operator, ofBrackets.marked]

/-! ### What the trees hold -/

/-- A tree occurs in a left operand. -/
def Kept (x : Tree) (pending : List Pending) : Prop :=
  ∃ o ∈ pending, ∃ t ∈ o.left, Tree.Part x t

/-- A tree occurs in one of those that the parser holds. -/
def Says (p : Parser) (x : Tree) : Prop :=
  (∃ t ∈ p.operand, Tree.Part x t) ∨ Kept x p.pending

variable {x : Tree}

theorem kept_cons : Kept x (o :: below) ↔ (∃ t ∈ o.left, Tree.Part x t) ∨ Kept x below := by
  simp [Kept]

theorem kept_append : Kept x (above ++ below) ↔ Kept x above ∨ Kept x below := by
  simp only [Kept, List.mem_append, or_and_right, exists_or]

theorem kept_markSection {pending : List Pending} : Kept x (markSection pending) ↔ Kept x pending := by
  induction pending with
  | nil => rfl
  | cons o below ih =>
    unfold markSection
    split
    · rw [kept_cons, kept_cons]
    · rw [kept_cons, kept_cons, ih]

theorem Fits.none (fits : Fits o below) (leads : o.rule.fixity ≠ .infixOp ∨ o.missingLeft = true) :
    o.left = none := by
  rw [← Option.not_isSome_iff_eq_none, fits.left]
  rcases leads with leads | missing
  · exact fun both => leads both.1
  · simp [missing]

theorem Collects.kept {links : List Pending} {lefts : List Tree} (collects : Collects links lefts)
    (stack : Stackwise Fits (links ++ rest)) : (∃ t ∈ lefts, Tree.Part x t) ↔ Kept x links := by
  induction collects with
  | @first o _ leads => simp [Kept, stack.head.none (.inl leads)]
  | infixed _ _ operand => simp [Kept, operand]
  | next _ operand _ _ ih =>
    have inner := ih stack.tail
    rw [kept_cons, ← inner]
    simp [operand, or_and_right, exists_or, or_comm]

/-- Reductions lose no leaf, except the words of a declaration. -/
theorem Reduct.keeps (reduct : Reduct p top below right q) (stack : Stackwise Fits (top :: below))
    (leaf : x.isLeaf = true) (said : Tree.Part x right ∨ Kept x (top :: below)) : q.Says x ∨ x.IsBare := by
  have prefixed : top.rule.fixity = .prefixOp → top.left = none := fun leads =>
    stack.head.none (.inl (by rw [leads]; exact Fixity.noConfusion))
  cases reduct with
  | chain _ split collects =>
    rw [split] at stack said
    rw [kept_append, ← collects.kept stack] at said
    refine .inl (said.elim (fun part => .inl ⟨_, rfl, ?_⟩) fun kept => kept.imp (fun part => ⟨_, rfl, ?_⟩) id)
    · exact .under (by simp [Tree.children]) part
    · obtain ⟨t, inside, part⟩ := part
      exact .under (by simp [Tree.children, inside]) part
  | erase _ leads =>
    rw [kept_cons, prefixed leads] at said
    exact .inl (said.imp (fun part => ⟨right, rfl, part⟩) fun kept => kept.resolve_left (by simp))
  | declare _ leads _ read registered =>
    rw [kept_cons, prefixed leads] at said
    rcases said with part | kept
    · exact .inr ((Declaration.ofOperand_ok read).2.2.1 x leaf part)
    · exact .inl (.inr (kept.resolve_left (by simp)))
  | leading _ leads =>
    rw [kept_cons, prefixed leads] at said
    refine .inl (said.imp (fun part => ⟨_, rfl, ?_⟩) fun kept => kept.resolve_left (by simp))
    exact .under (by simp [Tree.children]) part
  | headless _ _ missing =>
    rw [kept_cons, stack.head.none (.inr missing)] at said
    refine .inl (said.imp (fun part => ⟨_, rfl, (Tree.part_ofInfix leaf).2 (.inr part)⟩) fun kept => ?_)
    exact kept_markSection.2 (kept.resolve_left (by simp))
  | infixed _ _ _ operand =>
    rw [kept_cons, operand] at said
    rcases said with part | part | kept
    · exact .inl (.inl ⟨_, rfl, (Tree.part_ofInfix leaf).2 (.inr part)⟩)
    · obtain ⟨left, same, part⟩ := part
      cases same
      exact .inl (.inl ⟨_, rfl, (Tree.part_ofInfix leaf).2 (.inl part)⟩)
    · exact .inl (.inr kept)

/-- What happens inside a bracket loses no leaf, except the words of declarations. -/
theorem Edit.keeps (edit : Edit p q) (stack : Stackwise Fits p.pending) (leaf : x.isLeaf = true)
    (said : p.Says x) : q.Says x ∨ x.IsBare := by
  unfold Says at said
  cases edit with
  | reduce here operand _ reduct =>
    rw [here] at stack said
    rw [operand] at said
    exact reduct.keeps stack leaf (said.imp (fun ⟨t, same, part⟩ => by cases same; exact part) id)
  | separator here empty =>
    rw [here, empty, kept_cons] at said
    exact .inl (said.elim (by simp) id)
  | operator here empty _ missing =>
    rw [here] at stack said
    rw [empty, kept_cons, stack.head.none (.inr missing)] at said
    exact .inl (.inr ((said.resolve_left (by simp)).resolve_left (by simp)))
  | gap here empty =>
    rw [here, empty] at said
    refine .inl (.inr ?_)
    rw [kept_cons, kept_markSection, ← kept_cons]
    exact said.resolve_left (by simp)

/-- The registry changes only where a declaration is reduced. -/
theorem Edit.registry (edit : Edit p q) : q.registry = p.registry ∨
    ∃ top below right kind d, p.pending = top :: below ∧ p.operand = some right ∧
      top.rule.fixity = .prefixOp ∧ top.rule.reduction = .declare kind ∧
      Declaration.ofOperand kind top.tag right = .ok d ∧ q.operand = some (.declaration d) ∧
      q.pending = below ∧ q.registry.scope = p.registry.scope ∧
      q.registry.entries = (d.rules.map fun r => ⟨p.registry.scope, r.2⟩).reverse ++ p.registry.entries ∧
      (d.rules.map fun r => r.2.symbol).Nodup := by
  cases edit with
  | @reduce top below right _ here operand _ reduct =>
    cases reduct with
    | @declare _ kind d _ leads declares read registered =>
      obtain ⟨scope, entries, nodup, -⟩ := registerRules_ok registered
      exact .inr ⟨top, below, right, kind, d, here, operand, leads, declares, read, rfl, rfl, scope, entries, nodup⟩
    | _ => exact .inl rfl
  | _ => exact .inl rfl

/-! ### Tokens -/

variable {r : Parser} {rule : Rule} {tag : Tag} {place : Nat} {C : Pending → Prop} {ends : Nat → Bool}
  {token : Token} {span : Span}

theorem edits_keep {I : Parser → Prop} (step : ∀ {p q}, Edit p q → I p → I q)
    (edits : Relation.ReflTransGen Edit p q) (holds : I p) : I q := by
  induction edits with
  | refl => exact holds
  | tail _ edit ih => exact step edit ih

theorem Stacked.edits (stack : Stacked p.pending) (edits : Relation.ReflTransGen Edit p q) : Stacked q.pending :=
  edits_keep (fun edit stack => edit.stackwise fits_unmarked stack) edits stack

theorem Stacked.behind (stack : Stacked p.pending) (behind : p.operand.isSome = true) (ready : Ready p rule r)
    (between : rule.fixity = .infixOp) : Stacked (r.push rule tag).pending := by
  refine .cons ⟨?_, fun prior same _ => ?_⟩ (stack.edits ready.edits)
  · simp [Pending.leading, between, ready.operand behind]
  · change rule.prior = some prior at same
    cases ready with
    | binds start =>
      rw [start] at same
      cases same
    | @continues _ top below continues _ here operator named =>
      cases continues.symm.trans same
      exact ⟨top, by rw [here]; rfl, operator, named⟩

theorem Stacked.leading {pending : List Pending} {operand : Option Tree} (stack : Stacked pending)
    (empty : operand = none) (leads : rule.fixity ≠ .infixOp) :
    Stacked ({ Pending.leading rule tag with left := operand } :: pending) := by
  refine .cons ⟨?_, ?_⟩ stack
  · simp [Pending.leading, empty, leads]
  · simp [empty]

theorem Room.empties (room : Room p place r) : r.operand = none := by
  cases room with
  | empty empty => exact empty
  | juxtaposed => rfl

theorem Stacked.room (stack : Stacked p.pending) (room : Room p place r) : Stacked r.pending := by
  cases room with
  | empty => exact stack
  | juxtaposed behind ready => exact stack.behind behind ready rfl

theorem Stacked.closes (stack : Stacked p.pending) (closes : Closes C p q) : Stacked q.pending := by
  obtain ⟨edits, here, -, -, -⟩ := closes
  have inner := stack.edits edits
  rw [here] at inner
  exact inner.tail

theorem Stacked.dedents (stack : Stacked p.pending) (dedents : Dedents ends p q) : Stacked q.pending := by
  induction dedents with
  | stop => exact stack
  | step _ _ closes _ ih => exact ih (stack.closes closes)

theorem Stacked.shifts (stack : Stacked p.pending) (shifts : Shifts p span token q) : Stacked q.pending := by
  cases shifts with
  | eof | inside | first | continues => exact stack
  | literal _ room | name _ _ room => exact (stack.room room :)
  | opening _ opens room =>
    exact (stack.room room).leading room.empties (by rw [opens]; exact Fixity.noConfusion)
  | leading _ leads room =>
    exact (stack.room room).leading room.empties (by rw [leads]; exact Fixity.noConfusion)
  | closing _ _ closes => exact stack.closes closes
  | headless => exact .cons ⟨by simp [Pending.leading], by simp [Pending.leading]⟩ stack
  | infixed _ between behind ready => exact stack.behind behind ready between
  | postfixed _ _ _ ready => exact (stack.edits ready.edits :)
  | indents _ _ _ _ empty => exact stack.leading empty Fixity.noConfusion
  | aligns _ dedents => exact stack.dedents dedents
  | separates _ dedents _ behind ready => exact (stack.dedents dedents).behind behind ready rfl

/-! ### Declarations stay in the trees -/

variable {d : Declaration}

/-- A declaration that was made is part of a tree. -/
def Declared (p : Parser) (d : Declaration) : Prop :=
  p.Says (.declaration d)

theorem Declared.edits (declared : p.Declared d) (stack : Stacked p.pending)
    (edits : Relation.ReflTransGen Edit p q) : q.Declared d := by
  refine (edits_keep (I := fun p => Stacked p.pending ∧ p.Declared d) ?_ edits ⟨stack, declared⟩).2
  rintro p q edit ⟨stack, declared⟩
  refine ⟨edit.stackwise fits_unmarked stack, (edit.keeps stack rfl declared).resolve_right ?_⟩
  rintro (⟨_, _, same⟩ | ⟨_, same⟩) <;> cases same

/-- A new operator takes the operand read last to its left. -/
theorem Declared.adds (declared : p.Declared d) (pending : q.pending = o :: p.pending) (left : o.left = p.operand) :
    q.Declared d := by
  right
  rw [pending, kept_cons, left]
  exact declared

theorem Declared.push (declared : p.Declared d) : (p.push rule tag).Declared d :=
  declared.adds rfl rfl

theorem Declared.ready (declared : p.Declared d) (stack : Stacked p.pending) (ready : Ready p rule r) :
    r.Declared d :=
  declared.edits stack ready.edits

theorem Declared.room (declared : p.Declared d) (stack : Stacked p.pending) (room : Room p place r) :
    r.Declared d := by
  cases room with
  | empty => exact declared
  | juxtaposed _ ready => exact (declared.ready stack ready).push

/-- Where there is no operand, all declarations lie to the left. -/
theorem Declared.kept (declared : p.Declared d) (empty : p.operand = none) : Kept (.declaration d) p.pending := by
  refine declared.resolve_left ?_
  simp [empty]

theorem Declared.operand (declared : p.Declared d) (empty : p.operand = none) (t : Tree) :
    { p with operand := some t }.Declared d :=
  .inr (declared.kept empty)

theorem Declared.closes (declared : p.Declared d) (stack : Stacked p.pending) (closes : Closes C p q) :
    q.Declared d := by
  obtain ⟨edits, here, opens, -, tree⟩ := closes
  have inner := stack.edits edits
  rw [here] at inner
  rcases declared.edits stack edits with said | kept
  · exact .inl ⟨_, rfl, (Tree.part_ofBracket rfl tree).2 said⟩
  · rw [here, kept_cons, inner.head.none] at kept
    · exact .inr (kept.resolve_left (by simp))
    · refine .inl fun between => ?_
      simp [Rule.isOpener, between] at opens

theorem Declared.dedents (declared : p.Declared d) (stack : Stacked p.pending) (dedents : Dedents ends p q) :
    q.Declared d := by
  induction dedents with
  | stop => exact declared
  | step _ _ closes _ ih => exact ih (declared.closes stack closes) (stack.closes closes)

theorem Declared.postfixed (declared : p.Declared d) (operand : p.operand = some t) :
    { p with operand := some (.postfixOp tag t) }.Declared d := by
  refine declared.imp (fun said => ?_) id
  obtain ⟨_, same, part⟩ := said
  cases operand.symm.trans same
  exact ⟨_, rfl, .under (by simp [Tree.children]) part⟩

theorem Declared.shifts (declared : p.Declared d) (stack : Stacked p.pending) (shifts : Shifts p span token q) :
    q.Declared d := by
  cases shifts with
  | eof | inside | first | continues => exact declared
  | literal _ room | name _ _ room => exact (declared.room stack room).operand room.empties _
  | opening _ _ room | leading _ _ room => exact (declared.room stack room).adds rfl rfl
  | closing _ _ closes => exact declared.closes stack closes
  | headless _ empty => exact declared.adds rfl empty.symm
  | infixed _ _ _ ready => exact (declared.ready stack ready).push
  | postfixed _ _ _ ready operand => exact (declared.ready stack ready).postfixed operand
  | indents => exact declared.adds rfl rfl
  | aligns _ dedents => exact declared.dedents stack dedents
  | separates _ dedents _ _ ready =>
    exact ((declared.dedents stack dedents).ready (stack.dedents dedents) ready).push

end Parser

end MixfixLambda
