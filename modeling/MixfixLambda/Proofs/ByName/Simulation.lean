import MixfixLambda.Proofs.ByName.Origin

/-!
# The machine follows call-by-name reduction

Every move of a pure, scoped machine reduces the term that its configuration stands for some number of
times, and a move that reduces nothing makes the configuration lighter.
-/
namespace MixfixLambda.ByName

/-- The origins agree with the heap, and the spine tracks the thunks that wait for their values. -/
structure Means (origin : Nat → Term) (c : Config) : Prop extends Origins origin c where
  tracks : Tracks c.globals origin c.frames (decode origin c.locals c.term)

/-- One configuration stands for what the other one reduces to, and is lighter if that is the same. -/
def Follows (c : Config) (origin : Nat → Term) (c' : Config) (origin' : Nat → Term) : Prop :=
  ∃ count, Takes iterated c.globals count (whole origin c) (whole origin' c') ∧
    (count = 0 → weight origin' c' < weight origin c)

/-- The operations on the spine of a pure machine are contexts of reduction. -/
theorem evaluates_of_pure {allowed : Nat → Prop} {c : Config} (plain : c.Pure allowed)
    (collects : c.Collects) : ∀ frame ∈ c.frames, Evaluates frame := by
  intro frame member
  cases frame with
  | arg | update => trivial
  | force operation tag values pending backtrace =>
    obtain ⟨_, two⟩ := plain.holds.operations operation tag values pending backtrace member
    have lacks : values.length + pending.length + 1 = operation.arity := collects _ member
    have arity : operation.arity = 2 := two
    exact ⟨arity, by omega⟩

theorem complex_of_closed {t : Term} {limit : Nat} (closed : t.Scoped 0 limit) : ¬ t.IsVar := by
  cases t with
  | var depth tag => exact absurd closed (Nat.not_lt_zero depth)
  | _ => exact id

section Growth

variable {origin origin' : Nat → Term} {c : Config} {t u : Term} {frames : List Frame}

/-- What a configuration stands for depends on the origins of its own thunks. -/
theorem whole_congr (addressed : c.Addressed) (same : ∀ thunk < c.heap.size, origin' thunk = origin thunk) :
    whole origin' c = whole origin c := by
  rw [whole, whole, plug_congr same addressed.frames, decode_congr same addressed.locals]

theorem weight_congr (addressed : c.Addressed) (same : ∀ thunk < c.heap.size, origin' thunk = origin thunk) :
    weight origin' c = weight origin c := by
  rw [weight, weight, focusWeight_congr same addressed.locals, framesWeight_congr same addressed.frames]

/-- A new thunk changes nothing else. -/
theorem Means.push (means : Means origin c) (addressed : c.Addressed) (closure : Closure)
    (known : ∀ thunk ∈ closure.locals, thunk < c.heap.size)
    (inside : closure.term.Scoped closure.locals.length c.globals.size) (complex : ¬ closure.term.IsVar) :
    Means (assign origin c.heap.size (standsFor origin closure)) { c with heap := c.heap.push closure } ∧
      whole (assign origin c.heap.size (standsFor origin closure)) c = whole origin c ∧
      weight (assign origin c.heap.size (standsFor origin closure)) c = weight origin c := by
  have same : ∀ thunk < c.heap.size,
      assign origin c.heap.size (standsFor origin closure) thunk = origin thunk :=
    fun thunk old => assign_of_lt old _
  refine ⟨⟨means.toOrigins.push addressed closure known inside complex, ?_⟩, whole_congr addressed same,
    weight_congr addressed same⟩
  change Tracks c.globals _ c.frames (decode _ c.locals c.term)
  rw [decode_congr same addressed.locals]
  exact tracks_congr same addressed.frames means.tracks

/-- One reduction in a context. -/
theorem reduces_once {globals : Array Global} (tracks : Tracks globals origin frames t)
    (evaluates : ∀ frame ∈ frames, Evaluates frame) (reduces : step iterated globals t = some u) :
    Tracks globals origin frames u ∧
      Takes iterated globals 1 (plug origin frames t) (plug origin frames u) :=
  ⟨tracks.takes evaluates (.single reduces), (Takes.single reduces).plug evaluates⟩

end Growth

section Demand

variable {origin origin' : Nat → Term} {c middle after : Config} {thunk : Nat}

/-- The machine goes on with a thunk: what the whole stands for is reduced at most once, and stands now for
the origin of the thunk in its context. -/
structure Awaits (c : Config) (origin : Nat → Term) (middle : Config) (origin' : Nat → Term)
    (thunk : Nat) : Prop where
  origins : Origins origin' middle
  tracks : Tracks c.globals origin' middle.frames (origin' thunk)
  follows : ∃ count,
    Takes iterated c.globals count (whole origin c) (plug origin' middle.frames (origin' thunk)) ∧
      (count = 0 → size (origin' thunk) + 3 + framesWeight origin' middle.frames ≤ weight origin c)

theorem awaits_lookup (means : Means origin c) {depth : Nat} {tag : Tag} (focus : c.term = .var depth tag)
    (bound : c.locals[depth]? = some thunk) : Awaits c origin c origin thunk := by
  have here : decode origin c.locals c.term = origin thunk := by
    simp [focus, decode, Term.close, bound]
  have tracks := means.tracks
  rw [here] at tracks
  refine ⟨means.toOrigins, tracks, 0, ?_, fun _ => ?_⟩
  · rw [whole, here]
    exact .refl _
  · rw [weight, focus, focusWeight, ← focus, here]
    omega

/-- A global is reduced to its definition. -/
theorem reduces_global (means : Means origin c) (evaluates : ∀ frame ∈ c.frames, Evaluates frame)
    {index : Nat} {tag : Tag} {definition : Global} (focus : c.term = .global index tag)
    (found : c.globals[index]? = some definition) :
    Tracks c.globals origin c.frames definition.term ∧
      Takes iterated c.globals 1 (whole origin c) (plug origin c.frames definition.term) := by
  have reduces : step iterated c.globals (decode origin c.locals c.term) = some definition.term := by
    rw [focus]
    change (c.globals[index]?).map Global.term = _
    rw [found]
    rfl
  exact reduces_once means.tracks evaluates reduces

theorem awaits_fresh (means : Means origin c) (addressed : c.Addressed) (closed : c.Scoped)
    (evaluates : ∀ frame ∈ c.frames, Evaluates frame) {index : Nat} {tag : Tag} {definition : Global}
    (backtrace : Backtrace) (focus : c.term = .global index tag)
    (found : c.globals[index]? = some definition) :
    ∃ origin', Awaits c origin { c.suspend (Closure.of definition.term [] backtrace) with
      constants := c.constants.set! index (some c.heap.size) } origin' c.heap.size := by
  have inside := closed.globals.closed found
  have itself : standsFor origin (Closure.of definition.term [] backtrace) = definition.term :=
    inside.close_eq (Nat.le_refl _)
  obtain ⟨grown, same, -⟩ := means.push addressed (Closure.of definition.term [] backtrace) nofun inside
    (complex_of_closed inside)
  rw [itself] at grown same
  obtain ⟨tracks, takes⟩ := reduces_global grown evaluates focus found
  have recorded := grown.toOrigins.record found (assign_self ..)
  refine ⟨assign origin c.heap.size definition.term, recorded.of_eq rfl rfl rfl, ?_, 1, ?_, nofun⟩
  · rw [assign_self]
    exact tracks
  · rw [assign_self, ← same]
    exact takes

theorem awaits_of_demands (means : Means origin c) (addressed : c.Addressed) (closed : c.Scoped)
    (evaluates : ∀ frame ∈ c.frames, Evaluates frame) (demand : c.Demands thunk middle) :
    ∃ origin', Awaits c origin middle origin' thunk := by
  cases demand with
  | lookup focus bound => exact ⟨origin, awaits_lookup means focus bound⟩
  | constant focus found lazy known =>
    obtain ⟨definition, found', same⟩ := means.constants _ _ known
    obtain ⟨tracks, takes⟩ := reduces_global means evaluates focus found'
    rw [← same] at tracks takes
    exact ⟨origin, means.toOrigins, tracks, 1, takes, nofun⟩
  | fresh focus found lazy unknown new =>
    subst new
    exact awaits_fresh means addressed closed evaluates _ focus found
  | @next value operation tag values pending backtrace below focus top strict =>
    have here : decode origin c.locals c.term = .int value := by
      rw [focus]
      rfl
    have context : wrap origin (.force operation tag values (thunk :: pending) backtrace) (.int value) =
        wrap origin (.force operation tag (values ++ [value]) pending backtrace) (origin thunk) := by
      simp [wrap]
    have tracks := means.tracks
    rw [here, top] at tracks
    have after := tracks.2
    rw [context] at after
    refine ⟨origin, means.of_eq rfl rfl rfl, (tracks_force ..).mpr after, 0, ?_, fun _ => ?_⟩
    · rw [whole, here, top, plug, context]
      exact .refl _
    · simp only [weight, focus, top, focusWeight, framesWeight, frameWeight, sizes]
      omega
  | @call operation tag pending backtrace below streams focus top enough quiet =>
    have here : decode origin c.locals c.term = .builtin operation tag := by
      rw [focus]
      rfl
    have tracks := tracks_waits top means.tracks
    rw [here] at tracks
    refine ⟨origin, means.of_eq rfl rfl rfl, (tracks_force ..).mpr tracks, 0, ?_, fun _ => ?_⟩
    · rw [whole, here, plug_waits top]
      exact .refl _
    · rw [weight, focus, framesWeight_waits top]
      simp only [focusWeight, framesWeight, frameWeight, sizes]
      omega

/-- What the machine goes on with is the value of the thunk, or the thunk itself. -/
theorem means_of_enters (awaits : Awaits c origin middle origin' thunk)
    (globals : middle.globals = c.globals) (evaluates : ∀ frame ∈ middle.frames, Evaluates frame)
    (inside : thunk < middle.heap.size) (entry : middle.Enters thunk after) :
    Means origin' after ∧ Follows c origin after origin' := by
  obtain ⟨count, takes, light⟩ := awaits.follows
  have tracks := awaits.tracks
  have reached := awaits.origins.reached thunk inside
  rw [globals] at reached
  have seen := @focusWeight_le_of_complex origin' (middle.heap.closureAt thunk).locals _
    (awaits.origins.complex thunk)
  cases entry with
  | done evaluated =>
    obtain ⟨more, reduces⟩ := reached
    refine ⟨⟨awaits.origins.of_eq rfl rfl rfl, ?_⟩, count + more, ?_, fun none => ?_⟩
    · change Tracks middle.globals origin' middle.frames _
      rw [globals]
      exact tracks.takes evaluates reduces
    · exact takes.trans (reduces.plug evaluates)
    · obtain ⟨rfl, rfl⟩ : count = 0 ∧ more = 0 := by omega
      have same := reduces.eq_of_zero
      have lighter := light rfl
      rw [same] at lighter
      exact Nat.lt_of_lt_of_le (by unfold weight standsFor at *; dsimp only; omega) lighter
  | pending waiting =>
    have same := awaits.origins.waiting thunk inside (by rw [waiting]; nofun)
    refine ⟨⟨(awaits.origins.run inside waiting).of_eq rfl rfl rfl, ?_, ?_⟩, count, ?_, fun none => ?_⟩
    · rintro other (_ | _)
      exact ⟨0, same ▸ .refl _⟩
    · change Tracks middle.globals origin' middle.frames (standsFor origin' _)
      rw [globals, same]
      exact tracks
    · change Takes _ _ _ _ (plug origin' middle.frames (standsFor origin' _))
      rw [same]
      exact takes
    · have lighter := light none
      rw [← same] at lighter
      refine Nat.lt_of_lt_of_le ?_ lighter
      unfold weight standsFor at *
      simp only [framesWeight, frameWeight]
      omega

end Demand

end MixfixLambda.ByName
