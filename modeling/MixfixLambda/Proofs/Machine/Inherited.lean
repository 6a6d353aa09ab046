import MixfixLambda.Proofs.Machine.Addresses

/-!
# Inherited properties

The terms that a run comes across are parts of the entry and of globals, a few closed terms that the
machine makes, and operations with the arguments they hold. A property of terms that is passed on along
these lines holds of the focus and of every closure in every configuration. Beside it stands what every
operation on the spine keeps to: it lacks as many values as its arity says.
-/
namespace MixfixLambda

/-- The terms that the machine makes itself. -/
inductive Machine.Made : Term → Prop
  | int (value : Int) : Made (.int value)
  | boolean (value : Bool) : Made (Builtin.boolean value)
  | identity : Made Machine.identity
  | zero : Made Machine.zero
  | succ : Made Machine.succ

/-- What an operation answers is an integer or a truth value. -/
theorem Builtin.binary_made {operation : Builtin} {a b : Int} {result : Term}
    (answer : operation.binary a b = .ok result) : Machine.Made result := by
  have integers : ∀ value, checked operation value = .ok result → Machine.Made result := by
    intro value accepted
    unfold checked at accepted
    split at accepted
    · exact Except.ok.inj accepted ▸ .int value
    · cases accepted
  cases operation with
  | add | sub | mul => exact integers _ answer
  | div =>
    simp only [binary] at answer
    split at answer
    · cases answer
    · exact integers _ answer
  | mod =>
    simp only [binary] at answer
    split at answer
    · cases answer
    · split at answer
      · exact Except.ok.inj answer ▸ .int _
      · cases answer
  | eq | ne | lt | le | gt | ge => exact Except.ok.inj answer ▸ .boolean _
  | put | get | abort => cases answer

/-- An operation waits for one value and for those of its pending arguments. -/
def Frame.Collects : Frame → Prop
  | .force operation _ values pending _ => values.length + pending.length + 1 = operation.arity
  | _ => True

/-- A property of terms under a number of variables that is passed on to all terms of a run. -/
structure Inherits (globals : Array Global) (P : Nat → Term → Prop) : Prop where
  left : ∀ {depth left right}, P depth (.app left right) → P depth left
  right : ∀ {depth left right}, P depth (.app left right) → P depth right
  body : ∀ {depth tag body}, P depth (.lam tag body) → P (depth + 1) body
  global : ∀ {depth index tag} {definition : Global}, P depth (.global index tag) →
    globals[index]? = some definition → P 0 definition.term
  captured : ∀ {locals : Env} {t : Term}, P locals.length t → ¬ t.IsVar →
    P (t.captured locals).length t
  made : ∀ {t}, Machine.Made t → P 0 t
  held : ∀ {depth operation tag} count, P depth (.builtin operation tag) →
    P count (.applyAll (.builtin operation tag) (Machine.heldArguments count))

namespace Config

/-- The property holds of the focus, of every closure, and of the operations on the spine. -/
structure Holds (P : Nat → Term → Prop) (c : Config) : Prop where
  focus : P c.locals.length c.term
  closures : ∀ thunk, P (c.heap.closureAt thunk).locals.length (c.heap.closureAt thunk).term
  operations : ∀ operation tag values pending backtrace,
    .force operation tag values pending backtrace ∈ c.frames → ∃ depth, P depth (.builtin operation tag)

namespace Holds

variable {P : Nat → Term → Prop} {c c' middle after : Config} {thunk : Nat}

theorem push (holds : c.Holds P) (closure : Closure) (new : P closure.locals.length closure.term) :
    ({ c with heap := c.heap.push closure } : Config).Holds P := by
  refine ⟨holds.focus, ?_, holds.operations⟩
  exact Heap.forall_closureAt_push (fun closure => P closure.locals.length closure.term) holds.closures new

theorem modify (holds : c.Holds P) (changed : Nat) (f : Closure → Closure)
    (new : P (f (c.heap.closureAt changed)).locals.length (f (c.heap.closureAt changed)).term) :
    ({ c with heap := c.heap.modify changed f } : Config).Holds P := by
  refine ⟨holds.focus, ?_, holds.operations⟩
  exact Heap.forall_closureAt_modify (fun closure => P closure.locals.length closure.term)
    holds.closures new

theorem updateThunk (holds : c.Holds P) (thunk : Nat) : (c.updateThunk thunk).Holds P := by
  have changed := holds.modify thunk (·.update c.term c.locals) holds.focus
  exact ⟨changed.focus, changed.closures, changed.operations⟩

/-- The focus changes, and the spine holds no operation that it did not hold. -/
theorem refocus (holds : c.Holds P) {term : Term} {locals : Env} {frames : List Frame}
    (focus : P locals.length term)
    (known : ∀ operation tag values pending backtrace,
      .force operation tag values pending backtrace ∈ frames →
      .force operation tag values pending backtrace ∈ c.frames) :
    ({ c with term, locals, frames } : Config).Holds P := by
  refine ⟨focus, holds.closures, ?_⟩
  intro operation tag values pending backtrace member
  exact holds.operations operation tag values pending backtrace (known _ _ _ _ _ member)

theorem demand (holds : c.Holds P) (inherits : Inherits c.globals P) (demand : c.Demands thunk middle) :
    middle.Holds P := by
  have focused := holds.focus
  cases demand with
  | lookup | constant => exact holds
  | @fresh index tag definition backtrace focus found lazy unknown new =>
    rw [focus] at focused
    have grown := holds.push (Closure.of definition.term [] backtrace) (inherits.global focused found)
    exact ⟨grown.focus, grown.closures, grown.operations⟩
  | next focus top strict =>
    refine ⟨holds.focus, holds.closures, ?_⟩
    rintro operation tag values pending backtrace (_ | ⟨_, member⟩)
    · exact holds.operations _ _ _ _ _ (by rw [top]; exact List.mem_cons_self)
    · exact holds.operations _ _ _ _ _ (by rw [top]; exact List.mem_cons_of_mem _ member)
  | call focus top enough quiet =>
    rw [focus] at focused
    refine ⟨holds.focus, holds.closures, ?_⟩
    rintro operation tag values pending backtrace (_ | ⟨_, member⟩)
    · exact ⟨_, focused⟩
    · exact holds.operations _ _ _ _ _ (by rw [top]; exact List.mem_append_right _ member)

theorem enter (holds : c.Holds P) (entry : c.Enters thunk after) : after.Holds P := by
  cases entry with
  | done evaluated => exact holds.refocus (holds.closures thunk) fun _ _ _ _ _ => id
  | pending waiting =>
    have running := holds.modify thunk (fun closure => { closure with state := .running })
      (holds.closures thunk)
    refine running.refocus (holds.closures thunk) ?_
    rintro operation tag values pending backtrace (_ | ⟨_, member⟩)
    exact member

/-- Every step keeps a property that is inherited. -/
theorem move (holds : c.Holds P) (inherits : Inherits c.globals P) (move : c.Moves c') : c'.Holds P := by
  have focused := holds.focus
  cases move with
  | enter demand entry => exact (holds.demand inherits demand).enter entry
  | share focus bound =>
    rw [focus] at focused
    refine holds.refocus (inherits.left focused) ?_
    rintro operation tag values pending backtrace (_ | ⟨_, member⟩)
    exact member
  | @delay left right backtrace focus complex =>
    rw [focus] at focused
    have grown := holds.push (Closure.of right (right.captured c.locals) backtrace)
      (inherits.captured (inherits.right focused) complex)
    refine ⟨inherits.left focused, grown.closures, ?_⟩
    rintro operation tag values pending backtrace (_ | ⟨_, member⟩)
    exact grown.operations _ _ _ _ _ member
  | apply focus top =>
    rw [focus] at focused
    exact holds.refocus (inherits.body focused) fun _ _ _ _ _ member => top ▸ List.mem_cons_of_mem _ member
  | update value top =>
    exact (holds.updateThunk _).refocus holds.focus
      fun _ _ _ _ _ member => top ▸ List.mem_cons_of_mem _ member
  | compute focus top both two answer =>
    exact holds.refocus (inherits.made (Builtin.binary_made answer))
      fun _ _ _ _ _ member => top ▸ List.mem_cons_of_mem _ member
  | @talk value operation tag backtrace below streams result focus top answer =>
    have made : Machine.Made result := by
      rcases answer with ⟨-, rfl⟩ | ⟨-, n, rfl⟩
      · exact .identity
      · exact .int n
    exact ⟨inherits.made made, holds.closures, fun _ _ _ _ _ member =>
      holds.operations _ _ _ _ _ (top ▸ List.mem_cons_of_mem _ member)⟩
  | unfold focus found value =>
    rw [focus] at focused
    exact holds.refocus (inherits.global focused found) fun _ _ _ _ _ => id
  | @iterate value thunk backtrace below focus positive top =>
    have grown := holds.push (Closure.of (.int (value - 1)) [] backtrace) (inherits.made (.int _))
    refine grown.refocus (inherits.made .succ) ?_
    rintro operation tag values pending backtrace (_ | ⟨_, member⟩)
    exact member
  | vanish focus exhausted top => exact holds.refocus (inherits.made .zero) fun _ _ _ _ _ => id
  | @hold operation tag arguments thunk below focus top short =>
    rw [focus] at focused
    have kept : ({ c with
        term := .applyAll (.builtin operation tag) (Machine.heldArguments arguments.length)
        locals := arguments.reverse, frames := below } : Config).Holds P := by
      refine holds.refocus ?_ ?_
      · rw [List.length_reverse]
        exact inherits.held _ focused
      · intro _ _ _ _ _ member
        rw [top]
        exact List.mem_append_right _ (List.mem_cons_of_mem _ member)
    exact kept.updateThunk thunk

theorem fail (holds : c.Holds P) (inherits : Inherits c.globals P) {cause : FaultCause}
    (failure : c.Fails cause c') : c'.Holds P := by
  cases failure with
  | loop demand running => exact holds.demand inherits demand
  | abort value top | mismatch value function top | compute focus top | talk focus top
  | wrongCount focus top =>
    refine ⟨holds.focus, holds.closures, fun _ _ _ _ _ member => ?_⟩
    exact holds.operations _ _ _ _ _ (top ▸ List.mem_cons_of_mem _ member)
  | _ => exact holds

end Holds

/-- Every operation on the spine waits for one value and for those of its pending arguments. -/
def Collects (c : Config) : Prop :=
  ∀ frame ∈ c.frames, frame.Collects

namespace Collects

variable {c c' middle after : Config} {thunk : Nat}

theorem top (collects : c.Collects) {frame : Frame} {below : List Frame}
    (top : c.frames = frame :: below) : frame.Collects ∧ ∀ frame ∈ below, frame.Collects := by
  unfold Collects at collects
  rw [top] at collects
  exact List.forall_mem_cons.mp collects

theorem waits (collects : c.Collects) {arguments : List Nat} {below : List Frame}
    (split : Waits c.frames arguments below) : ∀ frame ∈ below, frame.Collects := by
  unfold Collects at collects
  rw [show c.frames = _ from split] at collects
  exact fun frame member => collects frame (List.mem_append_right _ member)

theorem demand (collects : c.Collects) (demand : c.Demands thunk middle) : middle.Collects := by
  cases demand with
  | next focus top strict =>
    obtain ⟨waiting, rest⟩ := collects.top top
    refine List.forall_mem_cons.mpr ⟨?_, rest⟩
    simp only [Frame.Collects, List.length_cons, List.length_append, List.length_nil] at waiting ⊢
    omega
  | call focus top enough quiet =>
    refine List.forall_mem_cons.mpr ⟨?_, collects.waits top⟩
    simp only [Frame.Collects, List.length_nil]
    omega
  | _ => exact collects

theorem move (collects : c.Collects) (move : c.Moves c') : c'.Collects := by
  cases move with
  | enter demand entry =>
    have middle := collects.demand demand
    cases entry with
    | done evaluated => exact middle
    | pending waiting => exact List.forall_mem_cons.mpr ⟨trivial, middle⟩
  | share focus bound => exact List.forall_mem_cons.mpr ⟨trivial, collects⟩
  | delay focus complex => exact List.forall_mem_cons.mpr ⟨trivial, collects⟩
  | iterate focus positive top => exact List.forall_mem_cons.mpr ⟨trivial, collects⟩
  | apply focus top => exact (collects.top top).2
  | update value top => exact (collects.top top).2
  | compute focus top => exact (collects.top top).2
  | talk focus top => exact (collects.top top).2
  | hold focus top short => exact (List.forall_mem_cons.mp (collects.waits top)).2
  | unfold | vanish => exact collects

theorem fail (collects : c.Collects) {cause : FaultCause} (failure : c.Fails cause c') : c'.Collects := by
  cases failure with
  | loop demand running => exact collects.demand demand
  | abort value top | mismatch value function top | compute focus top | talk focus top
  | wrongCount focus top => exact (collects.top top).2
  | _ => exact collects

end Collects

end Config

end MixfixLambda
