import MixfixLambda.Proofs.ByName.Simulation

/-!
# Moves and reductions

Every move is followed by the term that the configuration stands for: it is reduced some number of times,
and where it is not, the configuration gets lighter.
-/
namespace MixfixLambda.ByName

section Values

variable {origin : Nat → Term} {locals : Env}

/-- A suspended term stands for what it stands for in place. -/
theorem decode_captured {t : Term} (complex : ¬ t.IsVar) :
    decode origin (t.captured locals) t = decode origin locals t := by
  cases t with
  | var => exact absurd trivial complex
  | _ => rfl

/-- A closed term stands for itself. -/
theorem decode_closed {t : Term} {limit : Nat} (closed : t.Scoped 0 limit) : decode origin [] t = t :=
  closed.close_eq (Nat.le_refl _)

theorem decode_made {t : Term} (made : Machine.Made t) : decode origin [] t = t :=
  decode_closed (@Machine.Made.scoped 0 0 t made)

theorem applyAll_not_isVar {head : Term} (complex : ¬ head.IsVar) (arguments : List Term) :
    ¬ (head.applyAll arguments).IsVar := by
  induction arguments generalizing head with
  | nil => exact complex
  | cons first rest ih => exact @ih (.app head first) id

/-- The variables of a held application stand for the arguments. -/
theorem decode_heldArguments (origin : Nat → Term) (arguments : List Nat) :
    (Machine.heldArguments arguments.length).map (decode origin arguments.reverse) =
      arguments.map origin := by
  refine List.ext_getElem (by simp [Machine.heldArguments]) fun i here _ => ?_
  have below : i < arguments.length := by simpa [Machine.heldArguments] using here
  have place : arguments.length - 1 - (arguments.length - 1 - i) = i := by omega
  have value : (arguments.map origin).reverse[arguments.length - 1 - i]? = some (origin arguments[i]) := by
    rw [List.getElem?_reverse (by rw [List.length_map]; omega), List.length_map, place]
    simp [below]
  simp [Machine.heldArguments, Builtin.v, decode, Term.close, value]

/-- Holding arguments weighs one for each of them. -/
theorem focusWeight_held (origin : Nat → Term) (operation : Builtin) (tag : Tag) (arguments : List Nat) :
    focusWeight origin arguments.reverse
      (.applyAll (.builtin operation tag) (Machine.heldArguments arguments.length)) =
      3 + arguments.length + sizes origin arguments :=
  focusWeight_applyAll _ (decode_heldArguments origin arguments)

theorem decode_held (origin : Nat → Term) (operation : Builtin) (tag : Tag) (arguments : List Nat) :
    decode origin arguments.reverse
      (.applyAll (.builtin operation tag) (Machine.heldArguments arguments.length)) =
      .applyAll (.builtin operation tag) (arguments.map origin) := by
  rw [← decode_heldArguments, decode, Term.close_applyAll]
  rfl

end Values

namespace Follows

variable {origin origin' : Nat → Term} {c c' : Config}

theorem of_lighter (same : whole origin' c' = whole origin c)
    (lighter : weight origin' c' < weight origin c) : Follows c origin c' origin' := by
  refine ⟨0, ?_, fun _ => lighter⟩
  rw [same]
  exact .refl _

theorem of_once (takes : Takes iterated c.globals 1 (whole origin c) (whole origin' c')) :
    Follows c origin c' origin' :=
  ⟨1, takes, nofun⟩

end Follows

namespace Means

variable {allowed : Nat → Prop} {origin origin' : Nat → Term} {c c' : Config} {thunk : Nat}
  {below : List Frame}

/-- An argument with a thunk of its own is put onto the spine. -/
theorem argue (means : Means origin c) {left right : Term} (focus : c.term = .app left right)
    (same : origin thunk = decode origin c.locals right) :
    Means origin { c with term := left, frames := .arg thunk :: c.frames } ∧
      whole origin { c with term := left, frames := .arg thunk :: c.frames } = whole origin c ∧
      weight origin { c with term := left, frames := .arg thunk :: c.frames } < weight origin c := by
  have here : decode origin c.locals c.term = .app (decode origin c.locals left) (origin thunk) := by
    rw [focus, same]
    rfl
  have tracks := means.tracks
  rw [here] at tracks
  refine ⟨⟨means.toOrigins.of_eq rfl rfl rfl, (tracks_arg _).mpr tracks⟩, ?_, ?_⟩
  · rw [whole, whole, here]
    rfl
  · rw [weight, weight, focus]
    simp only [focusWeight, framesWeight, frameWeight]
    rw [same]
    omega

/-- The value that the machine holds takes the place of a thunk that waits for it. -/
theorem update (means : Means origin c) (complex : ¬ c.term.IsVar) (top : c.frames = .update thunk :: below) :
    Means origin { c.updateThunk thunk with frames := below } ∧
      whole origin { c.updateThunk thunk with frames := below } = whole origin c ∧
      weight origin { c.updateThunk thunk with frames := below } + 2 = weight origin c := by
  have tracks := means.tracks
  rw [top] at tracks
  refine ⟨⟨(means.toOrigins.update complex (tracks.1 thunk rfl)).of_eq rfl rfl rfl, tracks.2⟩, ?_, ?_⟩
  · rw [whole, whole, top]
    rfl
  · rw [weight, weight, top]
    simp only [framesWeight, frameWeight, Config.updateThunk]
    omega

/-- An operation that lacks one argument of two takes the place of a thunk with the one it has. -/
theorem hold (means : Means origin c) {operation : Builtin} {tag : Tag} {arguments : List Nat}
    (focus : c.term = .builtin operation tag)
    (top : Config.Waits c.frames arguments (.update thunk :: below)) (few : arguments.length ≤ 1) :
    Means origin ({ c with
        term := .applyAll (.builtin operation tag) (Machine.heldArguments arguments.length)
        locals := arguments.reverse, frames := below : Config}.updateThunk thunk) ∧
      whole origin ({ c with
        term := .applyAll (.builtin operation tag) (Machine.heldArguments arguments.length)
        locals := arguments.reverse, frames := below : Config}.updateThunk thunk) = whole origin c ∧
      weight origin ({ c with
        term := .applyAll (.builtin operation tag) (Machine.heldArguments arguments.length)
        locals := arguments.reverse, frames := below : Config}.updateThunk thunk) < weight origin c := by
  have here : decode origin c.locals c.term = .builtin operation tag := by
    rw [focus]
    rfl
  have tracks := tracks_waits top means.tracks
  rw [here, ← decode_held] at tracks
  have collected : Means origin { c with
      term := .applyAll (.builtin operation tag) (Machine.heldArguments arguments.length)
      locals := arguments.reverse, frames := .update thunk :: below } :=
    ⟨means.toOrigins.of_eq rfl rfl rfl, tracks⟩
  obtain ⟨updated, same, lighter⟩ := collected.update (applyAll_not_isVar id _) rfl
  refine ⟨updated, same.trans ?_, ?_⟩
  · rw [whole, whole, here, plug_waits top, decode_held]
  · have before : weight origin c =
        3 + (sizes origin arguments + (2 + framesWeight origin below)) := by
      rw [weight, focus, framesWeight_waits top]
      rfl
    have after : weight origin { c with
        term := .applyAll (.builtin operation tag) (Machine.heldArguments arguments.length)
        locals := arguments.reverse, frames := .update thunk :: below } =
        3 + arguments.length + sizes origin arguments + (2 + framesWeight origin below) := by
      rw [weight, focusWeight_held]
      rfl
    rw [after] at lighter
    rw [before]
    refine Nat.le_of_succ_le_succ (Nat.le_trans (Nat.le_of_eq lighter) ?_)
    omega

theorem share (means : Means origin c) {left : Term} {depth : Nat} {tag : Tag}
    (focus : c.term = .app left (.var depth tag)) (bound : c.locals[depth]? = some thunk) :
    Means origin { c with term := left, frames := .arg thunk :: c.frames } ∧
      Follows c origin { c with term := left, frames := .arg thunk :: c.frames } origin := by
  have same : origin thunk = decode origin c.locals (.var depth tag) := by
    simp [decode, Term.close, bound]
  obtain ⟨argued, whole, lighter⟩ := means.argue focus same
  exact ⟨argued, .of_lighter whole lighter⟩

theorem delay (means : Means origin c) (addressed : c.Addressed) (closed : c.Scoped) {left right : Term}
    (backtrace : Backtrace) (focus : c.term = .app left right) (complex : ¬ right.IsVar) :
    ∃ origin', Means origin' { c.suspend (Closure.of right (right.captured c.locals) backtrace) with
        term := left, frames := .arg c.heap.size :: c.frames } ∧
      Follows c origin { c.suspend (Closure.of right (right.captured c.locals) backtrace) with
        term := left, frames := .arg c.heap.size :: c.frames } origin' := by
  have focused := closed.focus
  rw [focus] at focused
  have inside := closed.globals.inherits.captured focused.2 complex
  obtain ⟨grown, sameWhole, sameWeight⟩ := means.push addressed
    (Closure.of right (right.captured c.locals) backtrace) (addressed.captured right) inside complex
  have itself : standsFor origin (Closure.of right (right.captured c.locals) backtrace) =
      decode origin c.locals right := decode_captured complex
  rw [itself] at grown sameWhole sameWeight
  have old : decode (assign origin c.heap.size (decode origin c.locals right)) c.locals right =
      decode origin c.locals right :=
    decode_congr (fun thunk below => assign_of_lt below _) addressed.locals right
  obtain ⟨argued, whole, lighter⟩ := grown.argue focus ((assign_self ..).trans old.symm)
  refine ⟨_, ⟨argued.toOrigins.of_eq rfl rfl rfl, argued.tracks⟩, .of_lighter ?_ ?_⟩
  · exact whole.trans sameWhole
  · exact Nat.lt_of_lt_of_eq lighter sameWeight

/-- An abstraction takes the thunk of its argument for its variable. -/
theorem apply (means : Means origin c) (closed : c.Scoped) (evaluates : ∀ frame ∈ c.frames, Evaluates frame)
    {tag : Tag} {body : Term} (focus : c.term = .lam tag body) (top : c.frames = .arg thunk :: below) :
    Means origin { c with term := body, locals := thunk :: c.locals, frames := below } ∧
      Follows c origin { c with term := body, locals := thunk :: c.locals, frames := below } origin := by
  have focused := closed.focus
  rw [focus, Term.lam_scoped] at focused
  have here : decode origin c.locals c.term = .lam tag (body.close (c.locals.map origin) 1) := by
    rw [focus]
    rfl
  have substituted : (body.close (c.locals.map origin) 1).subst 0 (origin thunk) =
      decode origin (thunk :: c.locals) body := by
    refine Term.subst_close ?_ ?_ (means.closed thunk)
    · rw [List.length_map, Nat.zero_add, Nat.add_comm]
      exact focused
    · intro value member
      obtain ⟨other, -, rfl⟩ := List.mem_map.mp member
      exact means.closed other
  have tracks := means.tracks
  rw [here, top] at tracks
  rw [top] at evaluates
  have beneath := (List.forall_mem_cons.mp evaluates).2
  obtain ⟨tracks, takes⟩ := reduces_once tracks.2 beneath (step_lam _ _)
  rw [substituted] at tracks takes
  refine ⟨⟨means.toOrigins.of_eq rfl rfl rfl, tracks⟩, .of_once ?_⟩
  rw [whole, here, top]
  exact takes

/-- Two integers are replaced by the result of an operation on them. -/
theorem compute (means : Means origin c) (evaluates : ∀ frame ∈ c.frames, Evaluates frame)
    {value a b : Int} {operation : Builtin} {tag : Tag} {values : List Int} {backtrace : Backtrace}
    {result : Term} (focus : c.term = .int value)
    (top : c.frames = .force operation tag values [] backtrace :: below)
    (both : values ++ [value] = [a, b]) (two : operation.arity = 2)
    (answer : operation.binary a b = .ok result) :
    Means origin { c with term := result, locals := [], frames := below } ∧
      Follows c origin { c with term := result, locals := [], frames := below } origin := by
  have here : decode origin c.locals c.term = .int value := by
    rw [focus]
    rfl
  have reduces : step iterated c.globals (.app (.app (.builtin operation tag) (.int a)) (.int b)) =
      some result := by
    rw [step_compute two, answer]
    rfl
  have tracks := means.tracks
  rw [here, top] at tracks
  rw [top] at evaluates
  have beneath := (List.forall_mem_cons.mp evaluates).2
  have after := tracks.2
  rw [wrap_operands origin both] at after
  obtain ⟨tracks, takes⟩ := reduces_once after beneath reduces
  have closed : decode origin [] result = result := decode_made (Builtin.binary_made answer)
  refine ⟨⟨means.toOrigins.of_eq rfl rfl rfl, ?_⟩, .of_once ?_⟩
  · change Tracks c.globals origin below (decode origin [] result)
    rw [closed]
    exact tracks
  · change Takes iterated c.globals 1 _ (plug origin below (decode origin [] result))
    rw [closed, whole, here, top, plug, wrap_operands origin both]
    exact takes

/-- A global that is a value is its definition. -/
theorem unfold (means : Means origin c) (closed : c.Scoped) (evaluates : ∀ frame ∈ c.frames, Evaluates frame)
    {index : Nat} {tag : Tag} {definition : Global} (focus : c.term = .global index tag)
    (found : c.globals[index]? = some definition) :
    Means origin { c with term := definition.term, locals := [] } ∧
      Follows c origin { c with term := definition.term, locals := [] } origin := by
  obtain ⟨tracks, takes⟩ := reduces_global means evaluates focus found
  have same : decode origin [] definition.term = definition.term := decode_closed (closed.globals.closed found)
  refine ⟨⟨means.toOrigins.of_eq rfl rfl rfl, ?_⟩, .of_once ?_⟩
  · change Tracks c.globals origin c.frames (decode origin [] definition.term)
    rw [same]
    exact tracks
  · change Takes iterated c.globals 1 _ (plug origin c.frames (decode origin [] definition.term))
    rw [same]
    exact takes

/-- A numeral in front of an argument is unfolded. -/
theorem numeral (means : Means origin c) (evaluates : ∀ frame ∈ c.frames, Evaluates frame) {value : Int}
    (focus : c.term = .int value) (top : c.frames = .arg thunk :: below) :
    Tracks c.globals origin below (.app (iterated value) (origin thunk)) ∧
      Takes iterated c.globals 1 (whole origin c)
        (plug origin below (.app (iterated value) (origin thunk))) := by
  have here : decode origin c.locals c.term = .int value := by
    rw [focus]
    rfl
  have tracks := means.tracks
  rw [here, top] at tracks
  rw [top] at evaluates
  have beneath := (List.forall_mem_cons.mp evaluates).2
  rw [whole, here, top]
  exact reduces_once tracks.2 beneath (step_numeral value _)

theorem iterate (means : Means origin c) (addressed : c.Addressed)
    (evaluates : ∀ frame ∈ c.frames, Evaluates frame) {value : Int} (backtrace : Backtrace)
    (focus : c.term = .int value) (positive : 0 < value) (top : c.frames = .arg thunk :: below) :
    ∃ origin', Means origin' { c with
        heap := c.heap.push (Closure.of (.int (value - 1)) [] backtrace), locals := []
        term := Machine.succ, frames := .arg c.heap.size :: c.frames } ∧
      Follows c origin { c with
        heap := c.heap.push (Closure.of (.int (value - 1)) [] backtrace), locals := []
        term := Machine.succ, frames := .arg c.heap.size :: c.frames } origin' := by
  obtain ⟨grown, same, -⟩ := means.push addressed (Closure.of (.int (value - 1)) [] backtrace) nofun
    (Term.int_scoped _) id
  have itself : standsFor origin (Closure.of (.int (value - 1)) [] backtrace) = .int (value - 1) := rfl
  rw [itself] at grown same
  obtain ⟨tracks, takes⟩ := grown.numeral evaluates focus top
  have unfolds : iterated value = .app Machine.succ (.int (value - 1)) := if_pos positive
  have closed : decode (assign origin c.heap.size (.int (value - 1))) [] Machine.succ = Machine.succ :=
    decode_made .succ
  have argument := assign_self origin c.heap.size (.int (value - 1))
  rw [unfolds] at tracks takes
  refine ⟨_, ⟨grown.toOrigins.of_eq rfl rfl rfl, ?_⟩, .of_once ?_⟩
  · change Tracks c.globals _ (.arg c.heap.size :: c.frames) (decode _ [] Machine.succ)
    rw [top, closed, tracks_arg, tracks_arg, argument]
    exact tracks
  · change Takes iterated c.globals 1 _ (plug _ (.arg c.heap.size :: c.frames) (decode _ [] Machine.succ))
    rw [top, closed, plug, wrap, argument, ← same]
    exact takes

theorem vanish (means : Means origin c) (evaluates : ∀ frame ∈ c.frames, Evaluates frame) {value : Int}
    (focus : c.term = .int value) (exhausted : value ≤ 0) (top : c.frames = .arg thunk :: below) :
    Means origin { c with term := Machine.zero, locals := [] } ∧
      Follows c origin { c with term := Machine.zero, locals := [] } origin := by
  obtain ⟨tracks, takes⟩ := means.numeral evaluates focus top
  have unfolds : iterated value = Machine.zero := if_neg (by omega)
  have closed : decode origin [] Machine.zero = Machine.zero := decode_made .zero
  rw [unfolds] at tracks takes
  refine ⟨⟨means.toOrigins.of_eq rfl rfl rfl, ?_⟩, .of_once ?_⟩
  · change Tracks c.globals origin c.frames (decode origin [] Machine.zero)
    rw [closed, top, tracks_arg]
    exact tracks
  · change Takes iterated c.globals 1 _ (plug origin c.frames (decode origin [] Machine.zero))
    rw [closed, top]
    exact takes

/-- The term that a pure configuration stands for follows every move. -/
theorem move (means : Means origin c) (addressed : c.Addressed) (closed : c.Scoped)
    (plain : c.Pure allowed) (move : c.Moves c') :
    ∃ origin', Means origin' c' ∧ Follows c origin c' origin' := by
  have evaluates := evaluates_of_pure plain closed.collects
  cases move with
  | enter demand entry =>
    obtain ⟨origin', awaits⟩ := awaits_of_demands means addressed closed evaluates demand
    have further := evaluates_of_pure (plain.demand demand) (closed.collects.demand demand)
    have inside := (addressed.demand demand).2
    exact ⟨origin', means_of_enters awaits demand.globals further inside entry⟩
  | share focus bound => exact ⟨origin, means.share focus bound⟩
  | delay focus complex => exact means.delay addressed closed _ focus complex
  | apply focus top => exact ⟨origin, means.apply closed evaluates focus top⟩
  | update value top =>
    obtain ⟨updated, same, lighter⟩ := means.update value.not_isVar top
    exact ⟨origin, updated, .of_lighter same (by omega)⟩
  | compute focus top both two answer =>
    exact ⟨origin, means.compute evaluates focus top both two answer⟩
  | @talk value operation tag backtrace below streams result focus top answer =>
    have two := plain.top top
    rcases answer with ⟨rfl, -⟩ | ⟨rfl, -⟩ <;> cases two
  | unfold focus found value => exact ⟨origin, means.unfold closed evaluates focus found⟩
  | iterate focus positive top => exact means.iterate addressed evaluates _ focus positive top
  | vanish focus exhausted top => exact ⟨origin, means.vanish evaluates focus exhausted top⟩
  | hold focus top short =>
    rw [plain.operation focus] at short
    obtain ⟨held, same, lighter⟩ := means.hold focus top (Nat.le_of_lt_succ short)
    exact ⟨origin, held, .of_lighter same lighter⟩

end Means

end MixfixLambda.ByName
