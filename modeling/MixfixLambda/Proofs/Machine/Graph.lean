import MixfixLambda.Proofs.Machine.Scoping
import Mathlib.Logic.Relation

/-!
# The graph of thunks

Thunks and globals refer to each other: a closure to the thunks and the globals of its term, a global to
its thunk and to the globals of its definition. A step changes the references of one node at a time, and
what can be reached afterwards could be reached before, or from the new references.
-/
namespace MixfixLambda

open Relation

/-- What a term may refer to. -/
inductive Node where
  | thunk (address : Nat)
  | global (index : Nat)

/-- The nodes that a term refers to directly. -/
def Term.Roots (t : Term) (locals : Env) : Node → Prop
  | .thunk address => address ∈ locals
  | .global index => t.RefersTo index

namespace Term

theorem not_refersTo_of_scoped {t : Term} {depth index : Nat} (inside : t.Scoped depth 0) :
    ¬ t.RefersTo index :=
  fun refers => absurd (inside.refersTo_lt refers) (Nat.not_lt_zero index)

/-- A closed term that refers to no global has no roots. -/
theorem not_roots_of_closed {t : Term} (closed : t.Scoped 0 0) (node : Node) : ¬ t.Roots [] node := by
  cases node with
  | thunk address => exact List.not_mem_nil
  | global index => exact not_refersTo_of_scoped closed

theorem refersTo_app {left right : Term} {index : Nat} :
    (Term.app left right).RefersTo index ↔ left.RefersTo index ∨ right.RefersTo index := by
  simp [RefersTo, nodes, exists_or]

theorem refersTo_lam {tag : Tag} {body : Term} {index : Nat} :
    (Term.lam tag body).RefersTo index ↔ body.RefersTo index := by
  simp [RefersTo, nodes]

theorem refersTo_global {index other : Nat} {tag : Tag} :
    (Term.global index tag).RefersTo other ↔ other = index := by
  simp [RefersTo, nodes]

theorem Roots.left {left right : Term} {locals : Env} {node : Node} (root : left.Roots locals node) :
    (Term.app left right).Roots locals node := by
  cases node with
  | thunk address => exact root
  | global index => exact refersTo_app.mpr (.inl root)

/-- A suspended argument refers to nothing that the application does not refer to. -/
theorem Roots.captured {left right : Term} {locals : Env} {node : Node}
    (root : right.Roots (right.captured locals) node) : (Term.app left right).Roots locals node := by
  cases node with
  | global index => exact refersTo_app.mpr (.inr root)
  | thunk address =>
    cases right with
    | lam tag body => exact root
    | app first second => exact root
    | _ => cases root

theorem Roots.body {tag : Tag} {body : Term} {thunk : Nat} {locals : Env} {node : Node}
    (root : body.Roots (thunk :: locals) node) :
    node = .thunk thunk ∨ (Term.lam tag body).Roots locals node := by
  cases node with
  | global index => exact .inr (refersTo_lam.mpr root)
  | thunk address =>
    rcases List.mem_cons.mp root with rfl | member
    · exact .inl rfl
    · exact .inr member

end Term

namespace Config

/-- One node refers to another. -/
def Edge (c : Config) : Node → Node → Prop
  | .thunk address, node => (c.heap.closureAt address).term.Roots (c.heap.closureAt address).locals node
  | .global index, .thunk address => c.constants[index]? = some (some address)
  | .global index, .global other =>
    ∃ definition : Global, c.globals[index]? = some definition ∧ definition.term.RefersTo other

/-- One node refers to another, directly or indirectly, or is that node. -/
def Reaches (c : Config) : Node → Node → Prop :=
  ReflTransGen c.Edge

/-- Only the references of one node have changed. -/
structure Rewires (c c' : Config) (changed : Node) (targets : Node → Prop) : Prop where
  others : ∀ node other, node ≠ changed → c'.Edge node other → c.Edge node other
  here : ∀ other, c'.Edge changed other → targets other

namespace Rewires

variable {c c' : Config} {changed node other : Node} {targets : Node → Prop}

/-- A path along the new references is an old one, or it goes through the changed node, and on from one
of its targets. -/
theorem reaches (rewires : c.Rewires c' changed targets) (path : c'.Reaches node other) :
    c.Reaches node other ∨
      c.Reaches node changed ∧ ∃ target, targets target ∧ c.Reaches target other := by
  induction path using ReflTransGen.head_induction_on with
  | refl => exact .inl .refl
  | @head node next first rest ih =>
    by_cases here : node = changed
    · subst here
      refine .inr ⟨.refl, ?_⟩
      rcases ih with old | ⟨-, target, known, path⟩
      · exact ⟨next, rewires.here next first, old⟩
      · exact ⟨target, known, path⟩
    · have edge := rewires.others node next here first
      rcases ih with old | ⟨toChanged, fromTarget⟩
      · exact .inl (.head edge old)
      · exact .inr ⟨.head edge toChanged, fromTarget⟩

/-- No cycle is closed where the targets do not lead back. -/
theorem loopless (rewires : c.Rewires c' changed targets) (loopless : ∀ node, ¬ TransGen c.Edge node node)
    (away : ∀ target, targets target → ¬ c.Reaches target changed) (node : Node) :
    ¬ TransGen c'.Edge node node := by
  intro cycle
  obtain ⟨next, first, rest⟩ := TransGen.head'_iff.mp cycle
  by_cases here : node = changed
  · subst here
    have known := rewires.here next first
    rcases rewires.reaches rest with old | ⟨back, -⟩
    · exact away next known old
    · exact away next known back
  · have edge := rewires.others node next here first
    rcases rewires.reaches rest with old | ⟨toChanged, target, known, path⟩
    · exact loopless node (.head' edge old)
    · exact away target known (path.trans (.head edge toChanged))

end Rewires

variable {c : Config}

/-- A new closure is referred to by nothing, and refers to what its term does. -/
theorem rewires_push (c : Config) (closure : Closure) :
    c.Rewires { c with heap := c.heap.push closure } (.thunk c.heap.size)
      (closure.term.Roots closure.locals) := by
  refine ⟨?_, ?_⟩
  · rintro (place | index) other different edge
    · have old : place ≠ c.heap.size := fun same => different (congrArg Node.thunk same)
      simpa only [Edge, Heap.closureAt_push, if_neg old] using edge
    · cases other <;> exact edge
  · intro other edge
    simpa only [Edge, Heap.closureAt_push, if_pos] using edge

/-- A closure that is replaced refers to what the new term does. -/
theorem rewires_modify (c : Config) {address : Nat} (inside : address < c.heap.size)
    (f : Closure → Closure) :
    c.Rewires { c with heap := c.heap.modify address f } (.thunk address)
      ((f (c.heap.closureAt address)).term.Roots (f (c.heap.closureAt address)).locals) := by
  refine ⟨?_, ?_⟩
  · rintro (place | index) other different edge
    · have old : ¬ (address = place ∧ place < c.heap.size) :=
        fun same => different (congrArg Node.thunk same.1).symm
      simpa only [Edge, Heap.closureAt_modify, if_neg old] using edge
    · cases other <;> exact edge
  · intro other edge
    simpa only [Edge, Heap.closureAt_modify, true_and, if_pos inside] using edge

/-- An entry of the table of constants is one reference more. -/
theorem rewires_constant (c : Config) (index address : Nat) :
    c.Rewires { c with constants := c.constants.set! index (some address) } (.global index)
      (fun other => c.Edge (.global index) other ∨ other = .thunk address) := by
  refine ⟨?_, ?_⟩
  · rintro (place | place) (other | other) different edge
    · exact edge
    · exact edge
    · rcases getElem?_set!_eq_some edge with ⟨rfl, -⟩ | ⟨-, old⟩
      · exact absurd rfl different
      · exact old
    · exact edge
  · rintro (other | other) edge
    · rcases getElem?_set!_eq_some edge with ⟨-, rfl⟩ | ⟨-, old⟩
      · exact .inr rfl
      · exact .inl old
    · exact .inl edge

/-- Marking a thunk as running changes no reference. -/
theorem edge_enter (c : Config) (address : Nat) :
    ({ c with heap := c.heap.modify address fun closure => { closure with state := .running } } :
      Config).Edge = c.Edge := by
  funext node other
  cases node with
  | thunk place =>
    simp only [Edge, Heap.closureAt_modify]
    split <;> rfl
  | global index => cases other <;> rfl

/-- References are to thunks on the heap. -/
theorem Addressed.edge_lt (addressed : c.Addressed) {node : Node} {address : Nat}
    (edge : c.Edge node (.thunk address)) : address < c.heap.size := by
  cases node with
  | thunk place => exact addressed.closures place address edge
  | global index => exact addressed.constants index address edge

/-- A place behind the end of the heap is only reached from itself. -/
theorem Addressed.not_reaches_size (addressed : c.Addressed) {node : Node}
    (different : node ≠ .thunk c.heap.size) : ¬ c.Reaches node (.thunk c.heap.size) := by
  intro path
  rcases ReflTransGen.cases_tail path with same | ⟨before, -, last⟩
  · exact different same.symm
  · exact Nat.lt_irrefl _ (addressed.edge_lt last)

end Config

end MixfixLambda
