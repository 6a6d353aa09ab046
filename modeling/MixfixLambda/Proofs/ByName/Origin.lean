import MixfixLambda.Proofs.ByName.Decode

/-!
# Origins of thunks

The closure of a thunk stands for its origin until it has a value, and then for something that the origin
reduces to. The origin of a thunk is fixed when the thunk is made.
-/
namespace MixfixLambda.ByName

/-- The origins with one more, of a new thunk. -/
def assign (origin : Nat → Term) (fresh : Nat) (t : Term) : Nat → Term :=
  fun thunk => if thunk = fresh then t else origin thunk

theorem assign_of_lt {origin : Nat → Term} {fresh thunk : Nat} (old : thunk < fresh) (t : Term) :
    assign origin fresh t thunk = origin thunk :=
  if_neg (Nat.ne_of_lt old)

@[simp]
theorem assign_self (origin : Nat → Term) (fresh : Nat) (t : Term) : assign origin fresh t fresh = t :=
  if_pos rfl

/-- What a closure stands for. -/
def standsFor (origin : Nat → Term) (closure : Closure) : Term :=
  decode origin closure.locals closure.term

/-- The closures of the heap and the table of constants agree with the origins. -/
structure Origins (origin : Nat → Term) (c : Config) : Prop where
  closed : ∀ thunk, (origin thunk).Scoped 0 c.globals.size
  complex : ∀ thunk, ¬ (c.heap.closureAt thunk).term.IsVar
  waiting : ∀ thunk < c.heap.size, (c.heap.closureAt thunk).state ≠ .done →
    standsFor origin (c.heap.closureAt thunk) = origin thunk
  reached : ∀ thunk < c.heap.size, ∃ count,
    Takes iterated c.globals count (origin thunk) (standsFor origin (c.heap.closureAt thunk))
  constants : ∀ (index thunk : Nat), c.constants[index]? = some (some thunk) →
    ∃ definition : Global, c.globals[index]? = some definition ∧ origin thunk = definition.term

namespace Origins

variable {origin : Nat → Term} {c c' : Config} {thunk : Nat}

/-- Only the globals, the heap and the constants matter. -/
theorem of_eq (origins : Origins origin c) (globals : c'.globals = c.globals) (heap : c'.heap = c.heap)
    (constants : c'.constants = c.constants) : Origins origin c' := by
  refine ⟨?_, ?_, ?_, ?_, ?_⟩
  · rw [globals]
    exact origins.closed
  · rw [heap]
    exact origins.complex
  · rw [heap]
    exact origins.waiting
  · rw [heap, globals]
    exact origins.reached
  · rw [constants, globals]
    exact origins.constants

/-- What is known of values is closed. -/
theorem decode_closed (origins : Origins origin c) {locals : Env} {t : Term}
    (inside : t.Scoped locals.length c.globals.size) : (decode origin locals t).Scoped 0 c.globals.size := by
  refine Term.Scoped.close_scoped ?_ ?_
  · rwa [List.length_map, Nat.zero_add]
  · intro value member
    obtain ⟨thunk, -, rfl⟩ := List.mem_map.mp member
    exact origins.closed thunk

/-- A new thunk stands for itself. -/
theorem push (origins : Origins origin c) (addressed : c.Addressed) (closure : Closure)
    (known : ∀ thunk ∈ closure.locals, thunk < c.heap.size)
    (inside : closure.term.Scoped closure.locals.length c.globals.size) (complex : ¬ closure.term.IsVar) :
    Origins (assign origin c.heap.size (standsFor origin closure))
      { c with heap := c.heap.push closure } := by
  have same : ∀ thunk < c.heap.size,
      assign origin c.heap.size (standsFor origin closure) thunk = origin thunk :=
    fun thunk old => assign_of_lt old _
  have new : standsFor (assign origin c.heap.size (standsFor origin closure)) closure =
      standsFor origin closure := decode_congr same known closure.term
  have old : ∀ thunk, standsFor (assign origin c.heap.size (standsFor origin closure))
      (c.heap.closureAt thunk) = standsFor origin (c.heap.closureAt thunk) :=
    fun thunk => decode_congr same (addressed.closures thunk) _
  have split : ∀ thunk < (c.heap.push closure).size, thunk = c.heap.size ∨ thunk < c.heap.size := by
    intro thunk below
    rw [Array.size_push] at below
    omega
  refine ⟨?_, ?_, ?_, ?_, ?_⟩
  · intro thunk
    unfold assign
    split
    · exact origins.decode_closed inside
    · exact origins.closed thunk
  · exact Heap.forall_closureAt_push (fun closure => ¬ closure.term.IsVar) origins.complex complex
  · intro thunk below unevaluated
    rcases split thunk below with rfl | before
    · rw [Heap.closureAt_push, if_pos rfl, new, assign_self]
    · rw [Heap.closureAt_push_lt before] at unevaluated ⊢
      rw [old, same thunk before]
      exact origins.waiting thunk before unevaluated
  · intro thunk below
    rcases split thunk below with rfl | before
    · rw [Heap.closureAt_push, if_pos rfl, new, assign_self]
      exact ⟨0, .refl _⟩
    · rw [Heap.closureAt_push_lt before, old, same thunk before]
      exact origins.reached thunk before
  · intro index thunk known
    rw [same thunk (addressed.constants index thunk known)]
    exact origins.constants index thunk known

/-- A closure is replaced by one that its origin reduces to. -/
theorem modify (origins : Origins origin c) (f : Closure → Closure)
    (complex : ¬ (f (c.heap.closureAt thunk)).term.IsVar)
    (waiting : (f (c.heap.closureAt thunk)).state ≠ .done →
      standsFor origin (f (c.heap.closureAt thunk)) = origin thunk)
    (reached : ∃ count, Takes iterated c.globals count (origin thunk)
      (standsFor origin (f (c.heap.closureAt thunk)))) :
    Origins origin { c with heap := c.heap.modify thunk f } := by
  refine ⟨origins.closed, ?_, ?_, ?_, origins.constants⟩
  · exact Heap.forall_closureAt_modify (fun closure => ¬ closure.term.IsVar) origins.complex complex
  · intro other below unevaluated
    rw [Array.size_modify] at below
    rw [Heap.closureAt_modify] at unevaluated ⊢
    split
    · next same =>
      rw [if_pos same] at unevaluated
      obtain ⟨rfl, -⟩ := same
      exact waiting unevaluated
    · next different =>
      rw [if_neg different] at unevaluated
      exact origins.waiting other below unevaluated
  · intro other below
    rw [Array.size_modify] at below
    rw [Heap.closureAt_modify]
    split
    · next same =>
      obtain ⟨rfl, -⟩ := same
      exact reached
    · exact origins.reached other below

/-- A thunk that is evaluated in place stands for what it stood for. -/
theorem run (origins : Origins origin c) (inside : thunk < c.heap.size)
    (pending : (c.heap.closureAt thunk).state = .pending) :
    Origins origin
      { c with heap := c.heap.modify thunk fun closure => { closure with state := .running } } := by
  refine origins.modify _ (origins.complex thunk) ?_ (origins.reached thunk inside)
  intro _
  exact origins.waiting thunk inside (by rw [pending]; nofun)

/-- A value takes the place of a thunk that reduces to it. -/
theorem update (origins : Origins origin c) (complex : ¬ c.term.IsVar)
    (reached : ∃ count, Takes iterated c.globals count (origin thunk) (decode origin c.locals c.term)) :
    Origins origin (c.updateThunk thunk) := by
  have changed := origins.modify (·.update c.term c.locals) complex
    (fun unevaluated => absurd rfl unevaluated) reached
  exact changed.of_eq rfl rfl rfl

/-- The table of constants gets an entry for a thunk that was made from the definition. -/
theorem record (origins : Origins origin c) {index : Nat} {definition : Global}
    (found : c.globals[index]? = some definition) (same : origin thunk = definition.term) :
    Origins origin { c with constants := c.constants.set! index (some thunk) } := by
  refine ⟨origins.closed, origins.complex, origins.waiting, origins.reached, ?_⟩
  intro place known entry
  rcases getElem?_set!_eq_some entry with ⟨rfl, rfl⟩ | ⟨-, old⟩
  · exact ⟨definition, found, same⟩
  · exact origins.constants place known old

end Origins

end MixfixLambda.ByName
