import MixfixLambda.Proofs.Machine.Scene

/-!
# Going on with thunks of a scene

What a step that needs a thunk leads to, said by what the thunk stands for. Each rule goes from one scene to a later
one: the integer, the cell of a list or the function is there, and all else stands for what it did.
-/
namespace MixfixLambda

namespace State

variable {globals : Array Code} {Q : State → Prop} {constants : Array (Option Nat)} {heap : Memory}
  {streams : Streams} {frames : List Wait} {code left right : Code} {env : Env} {thunk : Nat} {here value : Int}

theorem strict_of_binary {operation : Builtin} (two : operation.arity = 2) : operation ≠ .abort := by
  rintro rfl
  cases two

/-- The thunk of an operand: the integer is there, or the thunk is new and has not been evaluated. -/
def Operand (base heap : Memory) (thunk : Nat) (value : Int) (code : Code) (env : Env) : Prop :=
  heap.Known thunk value ∨ base[thunk]? = none ∧ heap[thunk]? = some ⟨code, env, .pending⟩

theorem Operand.within {base heap heap' : Memory} (operand : Operand base heap thunk value code env)
    (within : heap.Within heap') : Operand base heap' thunk value code env :=
  operand.imp (fun known => known.within within) fun ⟨new, found⟩ => ⟨new, within _ _ found⟩

theorem Leads.operand (reckons : right.Reckons here value) (known : heap.Known thunk here)
    (leads : ∀ (heap' : Memory) next, heap.Within heap' → Operand heap heap' next value right (thunk :: env) →
      Leads globals Q ⟨constants, heap', streams, .arg next :: frames, left, thunk :: env⟩) :
    Leads globals Q ⟨constants, heap, streams, frames, .app left right, thunk :: env⟩ := by
  cases reckons with
  | int => exact .delayInt (leads _ _ (fun _ _ found => Memory.push_kept found) (.inl ⟨[], Memory.push_new rfl⟩))
  | here => exact .share rfl (leads _ _ (fun _ _ found => found) (.inl known))
  | binary =>
    refine .delayApp (leads _ _ (fun _ _ found => Memory.push_kept found) (.inr ⟨?_, Memory.push_new rfl⟩))
    exact Array.getElem?_eq_none (Nat.le_refl _)

/-- An operand is evaluated, where its code can be. -/
theorem Forces.operand {base : Memory} {next : Nat} {focus : Code} {env' : Env} (within : base.Within heap)
    (known : base.Known thunk here) (operand : Operand base heap next value right (thunk :: env))
    (evaluates : ∀ (heap : Memory) (frames : List Wait), heap.Known thunk here →
      (∀ (heap' : Memory) env', heap.Within heap' →
        Leads globals Q ⟨constants, heap', streams, frames, .int value, env'⟩) →
      Leads globals Q ⟨constants, heap, streams, frames, right, thunk :: env⟩)
    (leads : ∀ (heap' : Memory) env', base.Within heap' →
      Leads globals Q ⟨constants, heap', streams, frames, .int value, env'⟩) :
    Forces globals Q ⟨constants, heap, streams, frames, focus, env'⟩ next := by
  rcases operand with ⟨env', found⟩ | ⟨new, found⟩
  · exact .value found (leads _ _ within)
  · have marked : base.Within (heap.mark next) := by
      intro i slot there
      have kept := within i slot there
      grind
    refine .evaluate found (evaluates _ _ ?_ fun heap' env' within' => .update trivial (leads _ _ ?_))
    · obtain ⟨env', integer⟩ := known
      exact ⟨env', marked _ _ integer⟩
    · intro i slot there
      have kept := within' _ _ (marked i slot there)
      grind

/-- Arithmetic on one integer that is there. -/
theorem Leads.reckon (reckons : code.Reckons here value) (known : heap.Known thunk here)
    (leads : ∀ (heap' : Memory) env', heap.Within heap' →
      Leads globals Q ⟨constants, heap', streams, frames, .int value, env'⟩) :
    Leads globals Q ⟨constants, heap, streams, frames, code, thunk :: env⟩ := by
  induction reckons generalizing heap frames with
  | int => exact leads _ _ fun _ _ found => found
  | here =>
    obtain ⟨env', found⟩ := known
    exact .lookup rfl (.value found (leads _ _ fun _ _ found => found))
  | binary first second two answer first' second' =>
    refine .operand second known fun h₁ t₂ within₁ operand₂ => .operand first (known.within within₁) ?_
    intro h₂ t₁ within₂ operand₁
    refine .binary two (.operand within₂ (known.within within₁) operand₁ (fun _ _ known' => first' known') ?_)
    intro h₃ env₃ within₃
    refine .next (strict_of_binary two) (.operand (within₁.trans within₃) known (operand₂.within within₃)
      (fun _ _ known' => second' known') fun h₄ env₄ within₄ => .computeInt two answer (leads _ _ within₄))

variable {scene s : Scene} {bound : Nat} {meaning : Meaning}

/-- A thunk that stands for something gets its value. -/
theorem Leads.refill {waits : scene.heap.Waiting thunk}
    (evolves : (scene.mark thunk waits).Evolves s) (means : scene.world thunk = some meaning) (value : code.Settles)
    (holds : Holds s.world s.heap meaning ⟨code, env, .done⟩)
    (leads : ∀ s' : Scene, scene.Evolves s' → s'.heap[thunk]? = some ⟨code, env, .done⟩ →
      Leads globals Q ⟨s'.constants, s'.heap, streams, frames, code, env⟩) :
    Leads globals Q ⟨s.constants, s.heap, streams, .update thunk :: frames, code, env⟩ := by
  obtain ⟨slot, found, pending⟩ := id waits
  have there : s.heap[thunk]? = some { slot with state := .running } := by
    exact evolves.kept _ _ (scene.mark_found found pending) (.inl (by simp))
  have known : ∀ meaning', s.world thunk = some meaning' → Holds s.world s.heap meaning' ⟨code, env, .done⟩ := by
    intro meaning' means'
    cases (evolves.known _ _ means).symm.trans means'
    exact holds
  exact .update value (leads _ (evolves.refill means) (s.fill_found ⟨_, there, rfl⟩ known))

/-- An integer is evaluated at most once. -/
theorem Forces.number (means : scene.world thunk = some (.number value)) (calm : scene.Calm bound)
    (leads : ∀ (s : Scene) env', scene.Evolves s → s.heap[thunk]? = some ⟨.int value, env', .done⟩ →
      Leads globals Q ⟨s.constants, s.heap, streams, frames, .int value, env'⟩) :
    Forces globals Q ⟨scene.constants, scene.heap, streams, frames, code, env⟩ thunk := by
  obtain ⟨slot, found, holds⟩ := scene.holds _ _ means
  cases holds with
  | running =>
    obtain ⟨values, same, _⟩ := calm _ _ _ means found rfl
    cases same
  | known => exact .value found (leads scene _ (.refl scene) found)
  | reckons operand reckons =>
    have waits : scene.heap.Waiting thunk := ⟨_, found, rfl⟩
    refine .evaluate found (.reckon reckons (operand.grows (scene.grows_mark waits)) fun heap' env' within => ?_)
    exact .refill ((scene.mark thunk waits).evolves_extend within) means trivial .known fun s' evolves there =>
      leads s' env' evolves there

/-- A list of one integer that is written out makes thunks for the integer and for the end. -/
theorem Leads.literal {left right : Code} (operand : scene.heap.Known thunk here)
    (reckons : Code.Reckons here (.app left right) value)
    (leads : ∀ (s : Scene) env', scene.Evolves s → ListCell s.world [value] .pair env' →
      Leads globals Q ⟨s.constants, s.heap, streams, frames, .pair, env'⟩) :
    Leads globals Q ⟨scene.constants, scene.heap, streams, frames, .literal (.app left right), thunk :: env⟩ := by
  let s₁ := scene.learn ⟨.empty, thunk :: env, .done⟩ (.list []) (.cell .empty)
  have evolves₁ : scene.Evolves s₁ := scene.evolves_learn _ (by simp)
  have empty : s₁.world scene.heap.size = some (.list []) := scene.world_learn _
  have number : Holds s₁.world s₁.heap (.number value) ⟨.app left right, thunk :: env, .pending⟩ :=
    .reckons (operand.grows evolves₁.grows) reckons
  let s₂ := s₁.learn _ _ number
  have evolves₂ : s₁.Evolves s₂ := s₁.evolves_learn number (by simp)
  refine .delayFn (.delayApp (.bind (.bind (leads s₂ _ (evolves₁.trans evolves₂) ?_))))
  exact .cons (s₁.world_learn number) (evolves₂.known _ _ empty)

theorem Forces.single (means : scene.world thunk = some (.single value)) (calm : scene.Calm bound)
    (leads : ∀ (s : Scene) code' env', scene.Evolves s → ListCell s.world [value] code' env' →
      Leads globals Q ⟨s.constants, s.heap, streams, frames, code', env'⟩) :
    Forces globals Q ⟨scene.constants, scene.heap, streams, frames, code, env⟩ thunk := by
  obtain ⟨slot, found, holds⟩ := scene.holds _ _ means
  cases holds with
  | running =>
    obtain ⟨values, same, _⟩ := calm _ _ _ means found rfl
    cases same
  | single cell => exact .value found (leads scene _ _ (.refl scene) cell)
  | literal operand reckons =>
    have waits : scene.heap.Waiting thunk := ⟨_, found, rfl⟩
    have operand' := operand.grows (scene.grows_mark waits)
    refine .evaluate found (Leads.literal operand' reckons fun s₁ env' evolves cell => ?_)
    refine .refill evolves means trivial (.single cell) fun s₂ evolves' there => ?_
    cases evolves'.holds means there with
    | single cell' => exact leads s₂ _ _ evolves' cell'

/-- The operation of a list is looked up. -/
theorem Forces.cons (prints : Prints globals) (means : scene.world thunk = some .cons) (calm : scene.Calm bound)
    (leads : ∀ (s : Scene) env', scene.Evolves s →
      Leads globals Q ⟨s.constants, s.heap, streams, frames, .fn (.fn .pair), env'⟩) :
    Forces globals Q ⟨scene.constants, scene.heap, streams, frames, code, env⟩ thunk := by
  obtain ⟨slot, found, holds⟩ := scene.holds _ _ means
  cases holds with
  | running =>
    obtain ⟨values, same, _⟩ := calm _ _ _ means found rfl
    cases same
  | cons => exact .value found (leads scene _ (.refl scene))
  | name =>
    have waits : scene.heap.Waiting thunk := ⟨_, found, rfl⟩
    refine .evaluate found (.unfold prints.cons rfl ?_)
    exact .refill (.refl (scene.mark thunk waits)) means trivial .cons fun s' evolves _ => leads s' _ evolves

/-- A recursive definition is called by its own name. -/
theorem Leads.again {depth self : Nat} {body : Code} (bound' : env[depth]? = some self)
    (means : scene.world self = some (.recursion (.fn body))) (calm : scene.Calm bound)
    (leads : ∀ (s : Scene) next, scene.Evolves s → s.world next = some (.recursion (.fn body)) →
      Leads globals Q ⟨s.constants, s.heap, streams, frames, .fn body, [next]⟩) :
    Leads globals Q ⟨scene.constants, scene.heap, streams, frames, .var depth, env⟩ := by
  obtain ⟨slot, found, holds⟩ := scene.holds _ _ means
  cases holds with
  | running =>
    obtain ⟨values, same, _⟩ := calm _ _ _ means found rfl
    cases same
  | unrolled next => exact .lookup bound' (.value found (leads scene _ (.refl scene) next))
  | waits half definition =>
    have waits : scene.heap.Waiting self := ⟨_, found, rfl⟩
    let marked := scene.mark self waits
    have half' := (scene.grows_mark waits).done _ _ half rfl
    have definition' := (scene.grows_mark waits).done _ _ definition rfl
    have holds : Holds marked.world marked.heap _ _ := .waits half' definition'
    let s₁ := marked.learn _ _ holds
    have evolves₁ : marked.Evolves s₁ := marked.evolves_learn holds (by simp)
    refine .lookup bound' (.evaluate found (.share rfl (.lookup rfl (.value half' (.half definition' ?_)))))
    refine .refill evolves₁ means trivial (.unrolled (marked.world_learn holds)) fun s₂ evolves₂ there => ?_
    cases evolves₂.holds means there with
    | unrolled next => exact leads s₂ _ evolves₂ next

/-- A recursive definition of the prelude is called by its name. When it is needed for the first time it gets its
thunk. -/
theorem Leads.named (scene : Scene) {index : Nat} {body : Code} (prints : Prints globals)
    (recursive : Recursive index (.fn body))
    (leads : ∀ (s : Scene) next, scene.Evolves s → s.world next = some (.recursion (.fn body)) →
      Leads globals Q ⟨s.constants, s.heap, streams, frames, .fn body, [next]⟩) :
    Leads globals Q ⟨scene.constants, scene.heap, streams, frames, .global index, env⟩ := by
  have definition := prints.recursive index _ recursive
  rcases scene.shelves _ _ recursive with unknown | ⟨thunk, self, known, found, means⟩
  · let s₀ := scene.push ⟨.fix (.fn (.fn body)), [], .pending⟩
    have first := Scene.Inner.mark (scene.evolves_push _) (Array.getElem?_eq_none (Nat.le_refl _)) scene.world_size
      (Array.getElem?_push_size : s₀.heap[scene.heap.size]? = some ⟨.fix (.fn (.fn body)), [], .pending⟩)
    let s₁ := s₀.mark scene.heap.size ⟨_, Array.getElem?_push_size, rfl⟩
    let s₂ := s₁.push ⟨.fn (.fn body), [], .done⟩
    let s₃ := s₂.push ⟨.half, [s₁.heap.size], .done⟩
    have function : s₃.heap[s₁.heap.size]? = some ⟨.fn (.fn body), [], .done⟩ :=
      Memory.push_kept Array.getElem?_push_size
    have holds : Holds s₃.world s₃.heap _ _ := .waits Array.getElem?_push_size function
    let s₄ := s₃.learn _ _ holds
    have later : s₁.Evolves s₄ :=
      (s₁.evolves_push _).trans ((s₂.evolves_push _).trans (s₃.evolves_learn holds (by simp)))
    let s₅ := (first.later later).fill (.fn body) [s₃.heap.size]
    have means : s₅.world s₃.heap.size = some (.recursion (.fn body)) := s₃.world_learn holds
    refine .constant definition rfl unknown (.delayFn (.bind (.delayFn (.half function (.update trivial ?_)))))
    exact leads (s₅.shelve recursive unknown (first.later later).fill_found means) _
      (first.later later).evolves_fill.shelve means
  · exact .shared definition rfl known (.value found (leads scene _ (.refl scene) means))

/-- A thunk that was not there before gets its value. -/
theorem Leads.give {code' : Code} {env' : Env} (inner : Scene.Inner scene s thunk code env) (value : code'.Settles)
    (leads : scene.Evolves (inner.fill code' env') →
      Leads globals Q ⟨(inner.fill code' env').constants, (inner.fill code' env').heap, streams, frames, code',
        env'⟩) :
    Leads globals Q ⟨s.constants, s.heap, streams, .update thunk :: frames, code', env'⟩ :=
  .update value (leads inner.evolves_fill)

/-- The thunks of the branches of a conditional, when the integer is known that it depends on. -/
structure Branches (scene s : Scene) (thunk : Nat) (value : Int) (env : Env) (yes no : Code) (first second : Nat) :
    Prop where
  evolves : scene.Evolves s
  new : scene.heap[first]? = none ∧ scene.heap[second]? = none
  unknown : s.world first = none ∧ s.world second = none
  first : s.heap[first]? = some ⟨yes, thunk :: env, .pending⟩
  second : s.heap[second]? = some ⟨no, thunk :: env, .pending⟩
  known : s.heap.Known thunk value

/-- An integer is compared. -/
theorem Leads.compare {c : Int} {yes no yes' no' : Code} (prints : Prints globals)
    (means : scene.world thunk = some (.number value)) (calm : scene.Calm bound)
    (leads : ∀ (s : Scene) first second,
      Branches scene s thunk value env (.app yes yes') (.app no no') first second →
      Leads globals Q ⟨s.constants, s.heap, streams, .arg first :: .arg second :: frames,
        (Builtin.boolean (value < c)).code, []⟩) :
    Leads globals Q ⟨scene.constants, scene.heap, streams, frames,
      .app (.app (.app (.global 2) (.lessThan c)) (.app yes yes')) (.app no no'), thunk :: env⟩ := by
  let s₁ := scene.push ⟨.app no no', thunk :: env, .pending⟩
  let s₂ := s₁.push ⟨.app yes yes', thunk :: env, .pending⟩
  let s₃ := s₂.push ⟨.lessThan c, thunk :: env, .pending⟩
  have test := Scene.Inner.mark (s₂.evolves_push _) (Array.getElem?_eq_none (Nat.le_refl _)) s₂.world_size
    (Array.getElem?_push_size : s₃.heap[s₂.heap.size]? = some ⟨.lessThan c, thunk :: env, .pending⟩)
  let s₄ := s₃.mark s₂.heap.size ⟨_, Array.getElem?_push_size, rfl⟩
  let s₅ := s₄.push ⟨.int c, [], .done⟩
  have evolves₂ : scene.Evolves s₂ := (scene.evolves_push _).trans (s₁.evolves_push _)
  have evolves₅ : scene.Evolves s₅ := evolves₂.trans (test.evolves.trans (s₄.evolves_push _))
  have compared : s₅.heap[s₄.heap.size]? = some ⟨.int c, [], .done⟩ := Array.getElem?_push_size
  have means₅ : s₅.world thunk = some (.number value) := evolves₅.known _ _ means
  have value' : (Builtin.boolean (value < c)).code.Settles := by
    cases decide (value < c) <;> exact trivial
  refine .delayApp (.delayApp (.delayApp (.unfold prints.ifThenElse rfl (.bind (.bind (.bind ?_))))))
  refine .share rfl (.share rfl (.lookup rfl (.evaluate Array.getElem?_push_size (.delayInt (.share rfl ?_)))))
  refine .binary rfl (.number means₅ (evolves₅.calm calm) fun s₆ env' evolves₆ there => ?_)
  refine .next (by decide) (.value (evolves₆.kept _ _ compared (.inl (by simp))) (.compute rfl rfl ?_))
  have test₆ := test.later ((s₄.evolves_push _).trans evolves₆)
  have first : s₂.heap[s₁.heap.size]? = some ⟨.app yes yes', thunk :: env, .pending⟩ := Array.getElem?_push_size
  have second : s₂.heap[scene.heap.size]? = some ⟨.app no no', thunk :: env, .pending⟩ :=
    Memory.push_kept Array.getElem?_push_size
  have unknown₁ : s₂.world s₁.heap.size = none := s₁.world_size
  have unknown₂ : s₂.world scene.heap.size = none := scene.world_size
  refine .give test₆ value' fun evolves₇ => leads _ s₁.heap.size scene.heap.size ?_
  exact {
    evolves := evolves₂.trans evolves₇
    new := by
      constructor
      · exact Array.getElem?_eq_none (by simp [s₁, Scene.push, Scene.extend, Scene.alter])
      · exact Array.getElem?_eq_none (Nat.le_refl _)
    unknown := ⟨evolves₇.unknown _ _ first unknown₁, evolves₇.unknown _ _ second unknown₂⟩
    first := evolves₇.kept _ _ first (.inr unknown₁)
    second := evolves₇.kept _ _ second (.inr unknown₂)
    known := ⟨env', test₆.fill_kept there (by simp)⟩ }

/-- One of the branches is evaluated. -/
theorem Leads.choose {c : Int} {yes no yes' no' : Code} (prints : Prints globals)
    (means : scene.world thunk = some (.number value)) (calm : scene.Calm bound)
    (less : value < c → ∀ (s : Scene) next, Scene.Inner scene s next (.app yes yes') (thunk :: env) →
      s.heap.Known thunk value →
      Leads globals Q ⟨s.constants, s.heap, streams, .update next :: frames, .app yes yes', thunk :: env⟩)
    (other : c ≤ value → ∀ (s : Scene) next, Scene.Inner scene s next (.app no no') (thunk :: env) →
      s.heap.Known thunk value →
      Leads globals Q ⟨s.constants, s.heap, streams, .update next :: frames, .app no no', thunk :: env⟩) :
    Leads globals Q ⟨scene.constants, scene.heap, streams, frames,
      .app (.app (.app (.global 2) (.lessThan c)) (.app yes yes')) (.app no no'), thunk :: env⟩ := by
  refine .compare prints means calm fun s first second branches => ?_
  obtain ⟨evolves, new, unknown, first', second', known⟩ := branches
  by_cases lt : value < c
  · rw [decide_eq_true lt]
    refine .bind (.bind (.lookup rfl (.evaluate first' (less lt _ _ (.mark evolves new.1 unknown.1 first') ?_))))
    exact known.grows (s.grows_mark ⟨_, first', rfl⟩)
  · rw [decide_eq_false lt]
    refine .bind (.bind (.lookup rfl (.evaluate second'
      (other (Int.not_lt.mp lt) _ _ (.mark evolves new.2 unknown.2 second') ?_))))
    exact known.grows (s.grows_mark ⟨_, second', rfl⟩)

end State

end MixfixLambda
