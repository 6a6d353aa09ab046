import MixfixLambda.Proofs.ByName.Numeral
import MixfixLambda.Proofs.Machine.Purity
import MixfixLambda.Proofs.Machine.Scoping

/-!
# What a configuration stands for

Every thunk stands for the closed term that it was made from, whatever has taken its place since. With
these origins for its variables, and put into the context that the spine describes, the focus becomes one
closed term. A weight bounds how long a machine can go on without a reduction of that term.
-/
namespace MixfixLambda.ByName

/-- The term that a term with thunks for its variables stands for. -/
def decode (origin : Nat → Term) (locals : Env) (t : Term) : Term :=
  t.close (locals.map origin) 0

/-- The context that a frame puts a term into. -/
def wrap (origin : Nat → Term) : Frame → Term → Term
  | .arg thunk, hole => .app hole (origin thunk)
  | .update _, hole => hole
  | .force operation tag values pending _, hole =>
    .applyAll (.builtin operation tag) (values.map .int ++ hole :: pending.map origin)

/-- The context that a spine puts a term into. -/
def plug (origin : Nat → Term) : List Frame → Term → Term
  | [], hole => hole
  | frame :: below, hole => plug origin below (wrap origin frame hole)

/-- The term that a configuration stands for. -/
def whole (origin : Nat → Term) (c : Config) : Term :=
  plug origin c.frames (decode origin c.locals c.term)

/-- Every thunk that waits for its value reduces to what is above the frame that will replace it. -/
def Tracks (globals : Array Global) (origin : Nat → Term) : List Frame → Term → Prop
  | [], _ => True
  | frame :: below, hole =>
    (∀ thunk, frame = .update thunk → ∃ count, Takes iterated globals count (origin thunk) hole) ∧
      Tracks globals origin below (wrap origin frame hole)

section Frames

variable {globals : Array Global} {origin : Nat → Term} {frames : List Frame} {hole : Term}

/-- Only the frame of an update asks for something. -/
theorem tracks_arg (thunk : Nat) :
    Tracks globals origin (.arg thunk :: frames) hole ↔ Tracks globals origin frames (.app hole (origin thunk)) :=
  ⟨fun tracks => tracks.2, fun tracks => ⟨nofun, tracks⟩⟩

theorem tracks_force (operation : Builtin) (tag : Tag) (values : List Int) (pending : List Nat)
    (backtrace : Backtrace) :
    Tracks globals origin (.force operation tag values pending backtrace :: frames) hole ↔
      Tracks globals origin frames
        (.applyAll (.builtin operation tag) (values.map .int ++ hole :: pending.map origin)) :=
  ⟨fun tracks => tracks.2, fun tracks => ⟨nofun, tracks⟩⟩

end Frames

section Congruence

variable {origin origin' : Nat → Term} {size : Nat}

theorem decode_congr (same : ∀ thunk < size, origin' thunk = origin thunk) {locals : Env}
    (inside : ∀ thunk ∈ locals, thunk < size) (t : Term) : decode origin' locals t = decode origin locals t := by
  have map : locals.map origin' = locals.map origin :=
    List.map_congr_left fun thunk member => same thunk (inside thunk member)
  rw [decode, decode, map]

theorem wrap_congr (same : ∀ thunk < size, origin' thunk = origin thunk) {frame : Frame}
    (inside : ∀ thunk ∈ frame.thunks, thunk < size) (hole : Term) :
    wrap origin' frame hole = wrap origin frame hole := by
  cases frame with
  | arg thunk => rw [wrap, wrap, same thunk (inside thunk List.mem_cons_self)]
  | update thunk => rfl
  | force operation tag values pending backtrace =>
    have map : pending.map origin' = pending.map origin :=
      List.map_congr_left fun thunk member => same thunk (inside thunk member)
    rw [wrap, wrap, map]

theorem plug_congr (same : ∀ thunk < size, origin' thunk = origin thunk) {frames : List Frame}
    (inside : ∀ frame ∈ frames, ∀ thunk ∈ frame.thunks, thunk < size) (hole : Term) :
    plug origin' frames hole = plug origin frames hole := by
  induction frames generalizing hole with
  | nil => rfl
  | cons frame below ih =>
    obtain ⟨first, rest⟩ := List.forall_mem_cons.mp inside
    rw [plug, plug, wrap_congr same first, ih rest]

theorem tracks_congr {globals : Array Global} (same : ∀ thunk < size, origin' thunk = origin thunk)
    {frames : List Frame} (inside : ∀ frame ∈ frames, ∀ thunk ∈ frame.thunks, thunk < size) {hole : Term}
    (tracks : Tracks globals origin frames hole) : Tracks globals origin' frames hole := by
  induction frames generalizing hole with
  | nil => trivial
  | cons frame below ih =>
    obtain ⟨first, rest⟩ := List.forall_mem_cons.mp inside
    refine ⟨?_, ?_⟩
    · rintro thunk rfl
      rw [same thunk (first thunk List.mem_cons_self)]
      exact tracks.1 thunk rfl
    · rw [wrap_congr same first]
      exact ih rest tracks.2

end Congruence

/-- The frame is a context in which reduction takes place. -/
def Evaluates : Frame → Prop
  | .force operation _ values pending _ => operation.arity = 2 ∧ values.length + pending.length = 1
  | _ => True

/-- An operation on two integers waits for the first one, or for the second one. -/
theorem first_or_second {values : List Int} {pending : List Nat}
    (one : values.length + pending.length = 1) :
    (values = [] ∧ ∃ thunk, pending = [thunk]) ∨ (∃ a, values = [a]) ∧ pending = [] := by
  rcases Nat.eq_zero_or_pos values.length with none | some
  · exact .inl ⟨List.length_eq_zero_iff.mp none, List.length_eq_one_iff.mp (by omega)⟩
  · exact .inr ⟨List.length_eq_one_iff.mp (by omega), List.length_eq_zero_iff.mp (by omega)⟩

/-- An operation on two integers, with both of them. -/
theorem wrap_operands (origin : Nat → Term) {value a b : Int} {operation : Builtin} {tag : Tag}
    {values : List Int} {backtrace : Backtrace} (both : values ++ [value] = [a, b]) :
    wrap origin (.force operation tag values [] backtrace) (.int value) =
      .app (.app (.builtin operation tag) (.int a)) (.int b) := by
  have map := congrArg (List.map Term.int) both
  rw [List.map_append] at map
  exact congrArg (Term.applyAll (.builtin operation tag)) map

section Contexts

variable {globals : Array Global} {origin : Nat → Term} {frame : Frame} {frames : List Frame}
  {count : Nat} {t u : Term}

theorem step_wrap (evaluates : Evaluates frame) (reduces : step iterated globals t = some u) :
    step iterated globals (wrap origin frame t) = some (wrap origin frame u) := by
  cases frame with
  | arg thunk => exact step_left reduces (origin thunk)
  | update thunk => exact reduces
  | force operation tag values pending backtrace =>
    obtain ⟨two, one⟩ := evaluates
    rcases first_or_second one with ⟨rfl, thunk, rfl⟩ | ⟨⟨a, rfl⟩, rfl⟩
    · exact step_first two reduces (origin thunk)
    · exact step_second two reduces

theorem Takes.wrap (evaluates : Evaluates frame) (takes : Takes iterated globals count t u) :
    Takes iterated globals count (wrap origin frame t) (wrap origin frame u) :=
  takes.congr fun _ _ => step_wrap evaluates

theorem Takes.plug (evaluates : ∀ frame ∈ frames, Evaluates frame)
    (takes : Takes iterated globals count t u) :
    Takes iterated globals count (plug origin frames t) (plug origin frames u) := by
  induction frames generalizing t u with
  | nil => exact takes
  | cons frame below ih =>
    obtain ⟨first, rest⟩ := List.forall_mem_cons.mp evaluates
    exact ih rest (takes.wrap first)

/-- Reducing the focus takes the waiting thunks further. -/
theorem Tracks.takes (tracks : Tracks globals origin frames t)
    (evaluates : ∀ frame ∈ frames, Evaluates frame) (takes : Takes iterated globals count t u) :
    Tracks globals origin frames u := by
  induction frames generalizing t u with
  | nil => trivial
  | cons frame below ih =>
    obtain ⟨first, rest⟩ := List.forall_mem_cons.mp evaluates
    refine ⟨?_, ih tracks.2 rest (takes.wrap first)⟩
    intro thunk update
    obtain ⟨before, begun⟩ := tracks.1 thunk update
    exact ⟨_, begun.trans takes⟩

end Contexts

/-- How long a machine may look into a term before it reduces it. -/
def size : Term → Nat
  | .app left right => 4 + size left + size right
  | _ => 3

/-- The same for a term with thunks for its variables; going on with a thunk counts. -/
def focusWeight (origin : Nat → Term) (locals : Env) : Term → Nat
  | .var depth tag => 3 + size (decode origin locals (.var depth tag))
  | .app left right => 1 + focusWeight origin locals left + size (decode origin locals right)
  | _ => 3

/-- The terms that thunks stand for, one after the other. -/
def sizes (origin : Nat → Term) : List Nat → Nat
  | [] => 0
  | thunk :: rest => size (origin thunk) + sizes origin rest

def frameWeight (origin : Nat → Term) : Frame → Nat
  | .arg thunk => size (origin thunk)
  | .update _ => 2
  | .force _ _ _ pending _ => sizes origin pending

def framesWeight (origin : Nat → Term) : List Frame → Nat
  | [] => 0
  | frame :: below => frameWeight origin frame + framesWeight origin below

/-- Steps that reduce nothing make this smaller. -/
def weight (origin : Nat → Term) (c : Config) : Nat :=
  focusWeight origin c.locals c.term + framesWeight origin c.frames

section Weights

variable {origin origin' : Nat → Term} {locals : Env}

theorem focusWeight_le (origin : Nat → Term) (locals : Env) (t : Term) :
    focusWeight origin locals t ≤ 3 + size (decode origin locals t) := by
  induction t with
  | app left right ihl ihr =>
    simp only [focusWeight, decode, Term.close, size] at ihl ⊢
    omega
  | var depth tag => exact Nat.le_refl _
  | _ => exact Nat.le_add_right ..

/-- A term that is no variable is seen for what it stands for. -/
theorem focusWeight_le_of_complex {t : Term} (complex : ¬ t.IsVar) :
    focusWeight origin locals t ≤ size (decode origin locals t) := by
  cases t with
  | app left right =>
    have inner := focusWeight_le origin locals left
    simp only [focusWeight, decode, Term.close, size] at inner ⊢
    omega
  | var depth tag => exact absurd trivial complex
  | _ => exact Nat.le_refl _

theorem focusWeight_congr {bound : Nat} (same : ∀ thunk < bound, origin' thunk = origin thunk)
    (inside : ∀ thunk ∈ locals, thunk < bound) (t : Term) :
    focusWeight origin' locals t = focusWeight origin locals t := by
  induction t with
  | var depth tag => rw [focusWeight, focusWeight, decode_congr same inside]
  | app left right ihl _ => rw [focusWeight, focusWeight, ihl, decode_congr same inside]
  | _ => rfl

theorem sizes_congr {bound : Nat} (same : ∀ thunk < bound, origin' thunk = origin thunk) {thunks : List Nat}
    (inside : ∀ thunk ∈ thunks, thunk < bound) : sizes origin' thunks = sizes origin thunks := by
  induction thunks with
  | nil => rfl
  | cons thunk rest ih =>
    obtain ⟨first, others⟩ := List.forall_mem_cons.mp inside
    rw [sizes, sizes, same thunk first, ih others]

theorem framesWeight_congr {bound : Nat} (same : ∀ thunk < bound, origin' thunk = origin thunk)
    {frames : List Frame} (inside : ∀ frame ∈ frames, ∀ thunk ∈ frame.thunks, thunk < bound) :
    framesWeight origin' frames = framesWeight origin frames := by
  induction frames with
  | nil => rfl
  | cons frame below ih =>
    obtain ⟨first, others⟩ := List.forall_mem_cons.mp inside
    have top : frameWeight origin' frame = frameWeight origin frame := by
      cases frame with
      | arg thunk => rw [frameWeight, frameWeight, same thunk (first thunk List.mem_cons_self)]
      | update thunk => rfl
      | force operation tag values pending backtrace => exact sizes_congr same first
    rw [framesWeight, framesWeight, top, ih others]

/-- An application to several arguments weighs one more for each of them. -/
theorem focusWeight_applyAll (head : Term) {arguments : List Term} {thunks : List Nat}
    (same : arguments.map (decode origin locals) = thunks.map origin) :
    focusWeight origin locals (head.applyAll arguments) =
      focusWeight origin locals head + thunks.length + sizes origin thunks := by
  induction arguments generalizing head thunks with
  | nil =>
    obtain rfl := List.map_eq_nil_iff.mp same.symm
    rfl
  | cons first rest ih =>
    cases thunks with
    | nil => cases same
    | cons thunk thunks =>
      obtain ⟨here, others⟩ := List.cons.inj same
      have next := ih (head.app first) others
      simp only [Term.applyAll, List.foldl_cons, focusWeight, List.length_cons, sizes, here] at next ⊢
      omega

end Weights

section Arguments

variable {globals : Array Global} {origin : Nat → Term} {frames below : List Frame}
  {arguments : List Nat} {hole : Term}

/-- Arguments in front of a spine are what the focus is applied to. -/
theorem plug_waits (split : Config.Waits frames arguments below) :
    plug origin frames hole = plug origin below (hole.applyAll (arguments.map origin)) := by
  subst split
  induction arguments generalizing hole with
  | nil => rfl
  | cons first rest ih => exact @ih (.app hole (origin first))

theorem tracks_waits (split : Config.Waits frames arguments below)
    (tracks : Tracks globals origin frames hole) :
    Tracks globals origin below (hole.applyAll (arguments.map origin)) := by
  subst split
  induction arguments generalizing hole with
  | nil => exact tracks
  | cons first rest ih => exact @ih (.app hole (origin first)) tracks.2

theorem framesWeight_waits (split : Config.Waits frames arguments below) :
    framesWeight origin frames = sizes origin arguments + framesWeight origin below := by
  subst split
  induction arguments with
  | nil => exact (Nat.zero_add _).symm
  | cons first rest ih =>
    rw [List.map_cons, List.cons_append, framesWeight, ih, sizes, Nat.add_assoc]
    rfl

end Arguments

end MixfixLambda.ByName
