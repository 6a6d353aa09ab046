import MixfixLambda.Proofs.Machine.Inherited
import MixfixLambda.Proofs.Term.Scope

/-!
# Programs that do not touch the streams

A term is pure if all of its operations compute on two integers and all of its globals are allowed ones.
Where the definitions of the allowed globals are pure as well, a run of a pure term leaves the streams as
they are.
-/
namespace MixfixLambda

namespace Term

/-- No operation on streams occurs in the term. -/
def Silent (t : Term) : Prop :=
  ¬ t.Uses .put ∧ ¬ t.Uses .get ∧ ¬ t.Uses .abort

/-- All operations take two integers, and all globals are allowed. -/
def Pure (allowed : Nat → Prop) : Term → Prop
  | .int _ | .var .. => True
  | .builtin operation _ => operation.arity = 2
  | .global index _ => allowed index
  | .lam _ body => body.Pure allowed
  | .app left right => left.Pure allowed ∧ right.Pure allowed

theorem pure_of_nodes {allowed : Nat → Prop} {t : Term}
    (operations : ∀ operation tag, .builtin operation tag ∈ t.nodes → operation.arity = 2)
    (globals : ∀ index tag, .global index tag ∈ t.nodes → allowed index) : t.Pure allowed := by
  induction t with
  | int | var => trivial
  | builtin operation tag => exact operations operation tag List.mem_cons_self
  | global index tag => exact globals index tag List.mem_cons_self
  | lam tag body ih =>
    refine ih ?_ ?_
    · intro operation tag member
      exact operations operation tag (List.mem_cons_of_mem _ member)
    · intro index tag member
      exact globals index tag (List.mem_cons_of_mem _ member)
  | app left right ihl ihr =>
    refine ⟨ihl ?_ ?_, ihr ?_ ?_⟩
    · intro operation tag member
      exact operations operation tag (List.mem_cons_of_mem _ (List.mem_append_left _ member))
    · intro index tag member
      exact globals index tag (List.mem_cons_of_mem _ (List.mem_append_left _ member))
    · intro operation tag member
      exact operations operation tag (List.mem_cons_of_mem _ (List.mem_append_right _ member))
    · intro index tag member
      exact globals index tag (List.mem_cons_of_mem _ (List.mem_append_right _ member))

theorem Silent.pure {t : Term} (silent : t.Silent) {allowed : Nat → Prop}
    (refers : ∀ index, t.RefersTo index → allowed index) : t.Pure allowed := by
  refine pure_of_nodes ?_ fun index tag member => refers index ⟨tag, member⟩
  intro operation tag member
  cases operation with
  | put => exact absurd ⟨tag, member⟩ silent.1
  | get => exact absurd ⟨tag, member⟩ silent.2.1
  | abort => exact absurd ⟨tag, member⟩ silent.2.2
  | _ => rfl

end Term

/-- The globals that a term refers to, directly or through other globals. -/
inductive Needs (globals : Array Global) (t : Term) : Nat → Prop
  | direct {index : Nat} (refers : t.RefersTo index) : Needs globals t index
  | indirect {index other : Nat} {definition : Global} (needs : Needs globals t index)
      (found : globals[index]? = some definition) (refers : definition.term.RefersTo other) :
      Needs globals t other

/-- No operation on streams occurs in what a module runs, nor in any global that it needs. -/
structure Module.Silent (m : Module) : Prop where
  entry : m.entry.term.Silent
  globals : ∀ (index : Nat) (definition : Global), Needs m.globals m.entry.term index →
    m.globals[index]? = some definition → definition.term.Silent

/-- The definitions of the allowed globals are pure. -/
def PureTable (allowed : Nat → Prop) (globals : Array Global) : Prop :=
  ∀ (index : Nat) (definition : Global), allowed index → globals[index]? = some definition →
    definition.term.Pure allowed

namespace Module.Silent

variable {m : Module}

theorem pureTable (silent : m.Silent) : PureTable (Needs m.globals m.entry.term) m.globals := by
  intro index definition needs found
  exact (silent.globals index definition needs found).pure fun _ refers => .indirect needs found refers

theorem pure (silent : m.Silent) : m.entry.term.Pure (Needs m.globals m.entry.term) :=
  silent.entry.pure fun _ refers => .direct refers

end Module.Silent

theorem Machine.Made.pure {t : Term} (made : Made t) {allowed : Nat → Prop} : t.Pure allowed := by
  cases made with
  | int value => trivial
  | boolean value => cases value <;> trivial
  | identity => trivial
  | zero => trivial
  | succ => exact ⟨trivial, ⟨trivial, trivial⟩, trivial⟩

theorem Term.applyAll_pure {allowed : Nat → Prop} (head : Term) (arguments : List Term) :
    (head.applyAll arguments).Pure allowed ↔ head.Pure allowed ∧ ∀ t ∈ arguments, t.Pure allowed := by
  induction arguments generalizing head with
  | nil => simp [applyAll]
  | cons first rest ih =>
    have next := ih (head.app first)
    simp only [applyAll, List.foldl_cons] at next ⊢
    rw [next, List.forall_mem_cons, ← and_assoc]
    rfl

/-- Being pure is passed on to every term of a run over a pure table. -/
theorem PureTable.inherits {allowed : Nat → Prop} {globals : Array Global}
    (table : PureTable allowed globals) : Inherits globals fun _ t => t.Pure allowed where
  left plain := plain.1
  right plain := plain.2
  body plain := plain
  global known found := table _ _ known found
  captured plain _ := plain
  made made := made.pure
  held count plain := by
    refine (Term.applyAll_pure _ _).mpr ⟨plain, ?_⟩
    intro t member
    obtain ⟨i, -, rfl⟩ := List.mem_map.mp member
    trivial

namespace Config

/-- The machine holds pure terms only. -/
structure Pure (allowed : Nat → Prop) (c : Config) : Prop where
  table : PureTable allowed c.globals
  holds : c.Holds fun _ t => t.Pure allowed

namespace Pure

variable {allowed : Nat → Prop} {c c' middle : Config} {thunk : Nat}

theorem demand (plain : c.Pure allowed) (demand : c.Demands thunk middle) : middle.Pure allowed := by
  refine ⟨?_, plain.holds.demand plain.table.inherits demand⟩
  rw [demand.globals]
  exact plain.table

theorem move (plain : c.Pure allowed) (move : c.Moves c') : c'.Pure allowed := by
  refine ⟨?_, plain.holds.move plain.table.inherits move⟩
  rw [move.globals]
  exact plain.table

/-- An operation on the spine takes two integers. -/
theorem top (plain : c.Pure allowed) {operation : Builtin} {tag : Tag} {values : List Int}
    {pending : List Nat} {backtrace : Backtrace} {below : List Frame}
    (top : c.frames = .force operation tag values pending backtrace :: below) : operation.arity = 2 := by
  obtain ⟨_, two⟩ := plain.holds.operations operation tag values pending backtrace
    (by rw [top]; exact List.mem_cons_self)
  exact two

theorem operation (plain : c.Pure allowed) {operation : Builtin} {tag : Tag}
    (focus : c.term = .builtin operation tag) : operation.arity = 2 := by
  have focused := plain.holds.focus
  rw [focus] at focused
  exact focused

theorem streams_demand (plain : c.Pure allowed) (demand : c.Demands thunk middle) :
    middle.streams = c.streams := by
  cases demand with
  | call focus top enough quiet =>
    refine quiet ?_
    rintro rfl
    cases plain.operation focus
  | _ => rfl

/-- A step of a pure term leaves the streams alone. -/
theorem streams_move (plain : c.Pure allowed) (move : c.Moves c') : c'.streams = c.streams := by
  cases move with
  | enter demand entry =>
    have same := plain.streams_demand demand
    cases entry with
    | done => exact same
    | pending => exact same
  | talk focus top answer =>
    have two := plain.top top
    rcases answer with ⟨rfl, -⟩ | ⟨rfl, -⟩ <;> cases two
  | _ => rfl

end Pure

end Config

end MixfixLambda
