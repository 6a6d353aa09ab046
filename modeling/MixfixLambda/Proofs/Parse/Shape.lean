import MixfixLambda.Proofs.Parse.Restored

/-!
# The shape of the stack

The operators that wait and the operands to their left lie on one stack, with the operand read last on top. Operands
and operators alternate on it as the fixities say and the file lies at the bottom, whatever rules are in force, so
that the checks which the reductions make of the stack are never what a source is refused for.
-/
namespace MixfixLambda

/-- What lies on the stack. -/
inductive Item where
  | operand (t : Tree)
  | operator (o : Pending)

def Item.isOperand : Item → Bool
  | .operand _ => true
  | .operator _ => false

namespace Parser

variable {p q r : Parser} {o top current : Pending} {above below rest : List Pending} {right t : Tree} {rule : Rule}
  {tag : Tag} {place : Nat} {C : Pending → Prop} {ends : Nat → Bool} {token : Token} {span : Span} {refusal : Refusal}

/-- An operand, where there is one. -/
def held (operand : Option Tree) : List Item :=
  operand.toList.map .operand

/-- Operators with the operands to their left. -/
def laid (pending : List Pending) : List Item :=
  pending.flatMap fun o => .operator o :: held o.left

/-- The stack, from the top to the bottom. -/
def items (p : Parser) : List Item :=
  held p.operand ++ laid p.pending

/-- The oldest operator that waits is the file. -/
def Grounded (pending : List Pending) : Prop :=
  (pending.map Pending.rule).getLast? = some fileRule

theorem Grounded.cons (grounded : Grounded below) (o : Pending) : Grounded (o :: below) := by
  rw [Grounded, List.map_cons, List.getLast?_cons, grounded]
  rfl

theorem Grounded.tail (grounded : Grounded (o :: below)) (inside : o.rule ≠ fileRule) : Grounded below := by
  rw [Grounded, List.map_cons, List.getLast?_cons] at grounded
  unfold Grounded
  cases last : (below.map Pending.rule).getLast? with
  | none =>
    rw [last] at grounded
    exact absurd (Option.some.inj grounded) inside
  | some rule =>
    rw [last] at grounded
    exact grounded

theorem Grounded.markSection (grounded : Grounded below) : Grounded (markSection below) := by
  rw [Grounded, rule_markSection]
  exact grounded

theorem operator_inside (operator : o.rule.isOpener = false) : o.rule ≠ fileRule := by
  intro file
  rw [file] at operator
  cases operator

theorem Grounded.suffix (grounded : Grounded (above ++ below)) (operators : ∀ o ∈ above, o.rule.isOpener = false) :
    Grounded below := by
  induction above with
  | nil => exact grounded
  | cons o above ih =>
    rw [List.forall_mem_cons] at operators
    exact ih (grounded.tail (operator_inside operators.1)) operators.2

theorem Edit.grounded (edit : Edit p q) (stack : Stacked p.pending) (grounded : Grounded p.pending) :
    Grounded q.pending := by
  cases edit with
  | @reduce top below _ _ here _ operator reduct =>
    rw [here] at stack grounded
    have inside := grounded.tail (operator_inside operator)
    cases reduct with
    | @chain links rest _ _ split collects =>
      rw [split] at stack grounded
      refine grounded.suffix (collects.operators stack fun o first => ?_)
      cases links with
      | nil => cases first
      | cons link links =>
        cases first
        exact (List.cons.inj split).1 ▸ operator
    | headless => exact inside.markSection
    | _ => exact inside
  | separator here _ separates =>
    rw [here] at grounded
    refine grounded.tail fun file => ?_
    rw [file] at separates
    cases separates
  | operator here _ operator =>
    rw [here] at grounded
    exact grounded.tail (operator_inside operator)
  | gap here _ operator =>
    rw [here] at grounded
    exact (grounded.tail (operator_inside operator)).markSection.cons _

/-- The operators that wait fit those under them, down to the file. -/
structure Upright (p : Parser) : Prop where
  stack : Stacked p.pending
  grounded : Grounded p.pending

theorem Upright.edit (upright : Upright p) (edit : Edit p q) : Upright q :=
  ⟨edit.stackwise fits_unmarked upright.stack, edit.grounded upright.stack upright.grounded⟩

theorem Upright.edits (upright : Upright p) (edits : Relation.ReflTransGen Edit p q) : Upright q :=
  edits_keep (fun edit upright => Upright.edit upright edit) edits upright

theorem Upright.closes (upright : Upright p) (closes : Closes C p q) (inside : ∀ o, C o → o.rule ≠ fileRule) :
    Upright q := by
  have stack := upright.stack.closes closes
  obtain ⟨edits, here, -, partner, -⟩ := closes
  have grounded := (upright.edits edits).grounded
  rw [here] at grounded
  exact ⟨stack, grounded.tail (inside _ partner)⟩

theorem block_inside (block : o.rule.bracketKind = some .block) : o.rule ≠ fileRule := by
  intro file
  rw [file] at block
  cases block

theorem Upright.dedents (upright : Upright p) (dedents : Dedents ends p q) : Upright q := by
  induction dedents with
  | stop => exact upright
  | step _ _ closes _ ih => exact ih (upright.closes closes fun _ => block_inside)

theorem Grounded.room (grounded : Grounded p.pending) (stack : Stacked p.pending) (room : Room p place r) :
    Grounded r.pending := by
  cases room with
  | empty => exact grounded
  | juxtaposed _ ready => exact ((Upright.mk stack grounded).edits ready.edits).grounded.cons _

theorem Upright.shifts (upright : Upright p) (worded : token.symbol ≠ some "") (shifts : Shifts p span token q) :
    Upright q := by
  refine ⟨upright.stack.shifts shifts, ?_⟩
  have grounded := upright.grounded
  cases shifts with
  | eof | inside | first | continues => exact grounded
  | literal _ room | name _ _ room => exact (grounded.room upright.stack room :)
  | opening _ _ room | leading _ _ room => exact (grounded.room upright.stack room).cons _
  | closing acts _ closes =>
    -- The file would be closed by the empty word alone.
    refine (upright.closes closes fun o partner file => worded ?_).grounded
    rw [file] at partner
    rw [acts.word, ← (Registry.mem_of_find? acts.found).2]
    exact partner.symm
  | headless | indents => exact grounded.cons _
  | infixed _ _ _ ready => exact (upright.edits ready.edits).grounded.cons _
  | postfixed _ _ _ ready => exact (upright.edits ready.edits).grounded
  | aligns _ dedents => exact (upright.dedents dedents).grounded
  | separates _ dedents _ _ ready => exact ((upright.dedents dedents).edits ready.edits).grounded.cons _

/-- All that a function may refuse a source for. -/
def Fails {α : Type} (x : Parsing α) (E : ParseError → Prop) : Prop :=
  ∀ refusal, x = .error refusal → E refusal.error

variable {α β : Type} {E : ParseError → Prop}

theorem Fails.mono {E' : ParseError → Prop} {x : Parsing α} (fails : Fails x E) (weaker : ∀ e, E e → E' e) :
    Fails x E' :=
  fun refusal failed => weaker _ (fails refusal failed)

theorem Fails.bind {x : Parsing α} {f : α → Parsing β} (first : Fails x E) (next : ∀ a, x = .ok a → Fails (f a) E) :
    Fails (x >>= f) E := by
  cases x with
  | error refusal =>
    rintro _ ⟨⟩
    exact first _ rfl
  | ok a => exact next a rfl

/-- The states that the parser passes while it takes a token or finishes: brackets are edited and closed, but the file
stays. -/
inductive Passes (p : Parser) : Parser → Prop
  | here : Passes p p
  | edits {q r : Parser} (passes : Passes p q) (edit : Edit q r) : Passes p r
  | closes {C : Pending → Prop} {q r : Parser} (passes : Passes p q) (closes : Closes C q r)
      (inside : ∀ o, C o → o.rule ≠ fileRule) : Passes p r

theorem Upright.passes (upright : Upright p) (passes : Passes p q) : Upright q := by
  induction passes with
  | here => exact upright
  | edits _ edit ih => exact ih.edit edit
  | closes _ closes inside ih => exact ih.closes closes inside

end Parser

end MixfixLambda
