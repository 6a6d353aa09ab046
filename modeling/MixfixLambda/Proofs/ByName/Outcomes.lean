import MixfixLambda.Proofs.ByName.Moves
import MixfixLambda.Proofs.Machine.Acyclic

/-!
# Values and faults of reduction

Where a machine halts the term that it stands for is a value. Where a pure machine fails that term is not
reduced either: it waits for an integer that it will not get, or for an argument that there is not.
-/
namespace MixfixLambda.ByName

variable {globals : Array Global} {origin : Nat → Term} {frame : Frame} {frames : List Frame} {t u : Term}

/-- The term is not reduced, and it is no integer either. -/
def Dead (globals : Array Global) (t : Term) : Prop :=
  step iterated globals t = none ∧ ∀ n, t ≠ .int n

/-- An application that nothing around it brings to go on. -/
structure Stuck (globals : Array Global) (t : Term) : Prop where
  normal : step iterated globals t = none
  applied : ∃ left right, t = .app left right ∧ ∀ operation tag, left ≠ .builtin operation tag

namespace Stuck

theorem dead (stuck : Stuck globals t) : Dead globals t := by
  refine ⟨stuck.normal, ?_⟩
  obtain ⟨left, right, rfl, -⟩ := stuck.applied
  nofun

/-- An operation does not get the integer that it waits for. -/
theorem operand (dead : Dead globals t) {operation : Builtin} {tag : Tag} {values : List Int}
    {pending : List Nat} {backtrace : Backtrace}
    (evaluates : Evaluates (.force operation tag values pending backtrace)) :
    Stuck globals (wrap origin (.force operation tag values pending backtrace) t) := by
  obtain ⟨two, one⟩ := evaluates
  obtain ⟨normal, other⟩ := dead
  rcases first_or_second one with ⟨rfl, thunk, rfl⟩ | ⟨⟨a, rfl⟩, rfl⟩
  · refine ⟨?_, _, _, rfl, nofun⟩
    change step iterated globals (.app (.app (.builtin operation tag) t) (origin thunk)) = none
    rw [step_operation two, normal]
    unfold operate
    split
    · next n => exact absurd rfl (other n)
    · rfl
  · refine ⟨?_, _, _, rfl, nofun⟩
    change step iterated globals (.app (.app (.builtin operation tag) (.int a)) t) = none
    rw [step_operation two, normal]
    unfold operate
    dsimp only
    split
    · next n => exact absurd rfl (other n)
    · rfl

theorem wrap (stuck : Stuck globals t) (evaluates : Evaluates frame) : Stuck globals (wrap origin frame t) := by
  cases frame with
  | arg thunk =>
    obtain ⟨normal, left, right, rfl, notBuiltin⟩ := stuck
    refine ⟨?_, _, _, rfl, nofun⟩
    change step iterated globals (.app (.app left right) (origin thunk)) = none
    rw [step_app, normal]
    · rfl
    · rintro operation tag first same
      exact notBuiltin operation tag (Term.app.inj same).1
  | update thunk => exact stuck
  | force operation tag values pending backtrace => exact operand stuck.dead evaluates

theorem plug (stuck : Stuck globals t) (evaluates : ∀ frame ∈ frames, Evaluates frame) :
    Stuck globals (plug origin frames t) := by
  induction frames generalizing t with
  | nil => exact stuck
  | cons frame below ih =>
    obtain ⟨first, rest⟩ := List.forall_mem_cons.mp evaluates
    exact ih (stuck.wrap first) rest

/-- There is no result of an operation on the two integers. -/
theorem refused {operation : Builtin} {tag : Tag} {a b : Int} {cause : FaultCause} (two : operation.arity = 2)
    (answer : operation.binary a b = .error cause) :
    Stuck globals (.app (.app (.builtin operation tag) (.int a)) (.int b)) := by
  refine ⟨?_, _, _, rfl, nofun⟩
  rw [step_compute two, answer]
  rfl

end Stuck

/-- An operation with one argument of two at most is no integer. -/
theorem dead_of_few (operation : Builtin) (tag : Tag) {arguments : List Term} (few : arguments.length ≤ 1) :
    Dead globals (.applyAll (.builtin operation tag) arguments) := by
  match arguments, few with
  | [], _ => exact ⟨rfl, nofun⟩
  | [first], _ => exact ⟨rfl, nofun⟩

theorem dead_of_lam (tag : Tag) (body : Term) : Dead globals (.lam tag body) :=
  ⟨rfl, nofun⟩

/-- A dead term does not lead to an integer. -/
theorem Dead.not_takes {count : Nat} {n : Int} (dead : Dead globals t) :
    ¬ Takes iterated globals count t (.int n) := by
  obtain ⟨normal, other⟩ := dead
  intro takes
  cases takes with
  | refl => exact other n rfl
  | head first rest =>
    rw [normal] at first
    cases first

section Failures

variable {allowed : Nat → Prop} {c c' : Config} {cause : FaultCause} {below : List Frame} {operation : Builtin}
  {tag : Tag} {values : List Int} {pending : List Nat} {backtrace : Backtrace}

/-- A value that is no integer is an abstraction, in place and as a term. -/
theorem dead_of_settles (value : c.term.Settles) (function : ∀ n, c.term ≠ .int n) :
    Dead globals (decode origin c.locals c.term) := by
  rcases value.int_or_lam with ⟨n, focus⟩ | ⟨tag, body, focus⟩
  · exact absurd focus (function n)
  · rw [focus]
    exact dead_of_lam tag _

/-- Beneath an operation on top of the spine there are contexts of reduction. -/
theorem stuck_of_top (evaluates : ∀ frame ∈ c.frames, Evaluates frame)
    (top : c.frames = .force operation tag values pending backtrace :: below)
    (dead : Dead c.globals (decode origin c.locals c.term)) : Stuck c.globals (whole origin c) := by
  rw [top] at evaluates
  obtain ⟨first, rest⟩ := List.forall_mem_cons.mp evaluates
  rw [whole, top]
  exact (Stuck.operand dead first).plug rest

/-- What a pure machine stands for where it fails does not lead to an integer. -/
theorem dead_of_fails (addressed : c.Addressed) (single : c.Single) (acyclic : c.Acyclic)
    (closed : c.Scoped) (plain : c.Pure allowed) (quiet : c.interrupt = .never)
    (failure : c.Fails cause c') (origin : Nat → Term) : Dead c.globals (whole origin c) := by
  have evaluates := evaluates_of_pure plain closed.collects
  have noLoop := acyclic.fail_ne_loop addressed single failure
  have external := closed.fail_ne_internal failure
  cases failure with
  | interrupted raised => exact absurd quiet raised
  | unbound focus missing => exact absurd rfl (external _)
  | unknown focus missing => exact absurd rfl (external _)
  | wrongCount focus top wrong => exact absurd rfl (external _)
  | loop demand running => exact absurd rfl noLoop
  | abort value top => cases plain.top top
  | talk focus top talks refused =>
    have two := plain.top top
    rcases talks with rfl | rfl <;> cases two
  | mismatch value function top => exact (stuck_of_top evaluates top (dead_of_settles value function)).dead
  | @partialOperand operation waiting tag waitingTag arguments values pending backtrace below focus top short =>
    rw [plain.operation focus] at short
    have few : (arguments.map origin).length ≤ 1 := by
      rw [List.length_map]
      omega
    have here : decode origin c.locals c.term = .builtin operation tag := by
      rw [focus]
      rfl
    have beneath : ∀ frame ∈ Frame.force waiting waitingTag values pending backtrace :: below,
        Evaluates frame := by
      intro frame member
      refine evaluates frame ?_
      rw [show c.frames = _ from top]
      exact List.mem_append_right _ member
    obtain ⟨first, rest⟩ := List.forall_mem_cons.mp beneath
    rw [whole, here, plug_waits top]
    exact ((Stuck.operand (dead_of_few operation tag few) first).plug rest).dead
  | @partialResult operation tag arguments focus top short =>
    rw [plain.operation focus] at short
    have few : (arguments.map origin).length ≤ 1 := by
      rw [List.length_map]
      omega
    have here : decode origin c.locals c.term = .builtin operation tag := by
      rw [focus]
      rfl
    rw [whole, here, plug_waits top]
    exact dead_of_few operation tag few
  | @compute value a b operation tag values backtrace below cause focus top both two answer =>
    have here : decode origin c.locals c.term = .int value := by
      rw [focus]
      rfl
    rw [top] at evaluates
    rw [whole, here, top, plug, wrap_operands origin both]
    exact ((Stuck.refused two answer).plug (List.forall_mem_cons.mp evaluates).2).dead

end Failures

end MixfixLambda.ByName
