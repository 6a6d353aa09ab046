import Mathlib.Logic.Function.Basic
import MixfixLambda.Proofs.Machine.Echo

/-!
# What thunks stand for

A thunk is evaluated when it is needed, once, and others may need it in between: what its code is says little.
But what it stands for never changes. A scene is a memory in which some thunks stand for integers, lists and
functions, and its invariant says of each of them how far it has been evaluated. To go on with a thunk leads from
one scene to a later one, in which every thunk stands for what it did.
-/
namespace MixfixLambda

namespace Code

/-- The code comes to an integer where the innermost variable is a given one. -/
inductive Reckons (here : Int) : Code → Int → Prop
  | int (value : Int) : Reckons here (.int value) value
  | here : Reckons here (.var 0) here
  | binary {left right : Code} {a b result : Int} {operation : Builtin} (first : Reckons here left a)
      (second : Reckons here right b) (two : operation.arity = 2)
      (answer : operation.binary a b = .ok (.int result)) :
      Reckons here (.app (.app (.builtin operation) left) right) result

/-- `[]` -/
def empty : Code :=
  .fn (.fn (.var 1))

/-- `[e]` -/
def literal (e : Code) : Code :=
  .app (.app (.fn (.fn pair)) e) empty

/-- `\h t -> f h (foldr f z t)` -/
def foldCons : Code :=
  .fn (.fn (.app (.app (.var 4) (.var 1)) (.app (.app (.app (.var 5) (.var 4)) (.var 3)) (.var 0))))

/-- `\f z xs -> xs z (\h t -> f h (foldr f z t))` -/
def fold : Code :=
  .fn (.fn (.fn (.app (.app (.var 0) (.var 1)) foldCons)))

/-- `foldr f z t` -/
def foldRest : Code :=
  .app (.app (.app (.var 5) (.var 4)) (.var 3)) (.var 0)

/-- `xs ++ ys` -/
def append : Code :=
  .fn (.fn (.app (.app (.app (.global 13) (.global 11)) (.var 0)) (.var 1)))

/-- `n + '0'` -/
def lowest : Code :=
  .app (.app (.builtin .add) (.var 0)) (.int 48)

/-- `n % 10 + '0'` -/
def last : Code :=
  .app (.app (.builtin .add) (.app (.app (.builtin .mod) (.var 0)) (.int 10))) (.int 48)

/-- `n / 10` -/
def others : Code :=
  .app (.app (.builtin .div) (.var 0)) (.int 10)

/-- `n < c` -/
def lessThan (c : Int) : Code :=
  .app (.app (.builtin .lt) (.var 0)) (.int c)

/-- `digits (n / 10) ++ [n % 10 + '0']` -/
def moreDigits : Code :=
  .app (.app (.global 14) (.app (.var 1) others)) (literal last)

/-- `\n -> if n < 10 then [n + '0'] else digits (n / 10) ++ [n % 10 + '0']` -/
def digits : Code :=
  .fn (.app (.app (.app (.global 2) (lessThan 10)) (literal lowest)) moreDigits)

/-- `'-' : digits (0 - n)` -/
def negative : Code :=
  .app (.app (.global 11) (.int 45)) (.app (.global 25) (.app (.app (.builtin .sub) (.int 0)) (.var 0)))

/-- `\n -> if n < 0 then '-' : digits (0 - n) else digits n` -/
def shown : Code :=
  .fn (.app (.app (.app (.global 2) (lessThan 0)) negative) (.app (.global 25) (.var 0)))

end Code

/-- The recursive definitions of the prelude that numbers are shown with. -/
inductive Recursive : Nat → Code → Prop
  | fold : Recursive 13 .fold
  | puts : Recursive 21 .puts
  | digits : Recursive 25 .digits

theorem Recursive.unique {index : Nat} {body body' : Code} (first : Recursive index body)
    (second : Recursive index body') : body = body' := by
  cases first <;> cases second <;> rfl

/-- The digits of a number as bytes. -/
def decimal (n : Nat) : List Int :=
  (Nat.toDigits 10 n).map fun digit => digit.toNat

/-- What a thunk stands for. -/
inductive Meaning where
  | number (value : Int)
  /-- A list of one integer, which is written out. -/
  | single (value : Int)
  | list (values : List Int)
  /-- The operation that puts an integer in front of a list. -/
  | cons
  /-- A recursive definition, which is a function. -/
  | recursion (body : Code)

/-- What is known of thunks. -/
abbrev World := Nat → Option Meaning

/-- A list that has been evaluated: it is empty, or the thunks of its first integer and of the rest are there. -/
inductive ListCell (world : World) : List Int → Code → Env → Prop
  | empty {env : Env} : ListCell world [] .empty env
  | cons {tail head : Nat} {env : Env} {value : Int} {values : List Int} (first : world head = some (.number value))
      (rest : world tail = some (.list values)) : ListCell world (value :: values) .pair (tail :: head :: env)

theorem ListCell.settles {world : World} {values : List Int} {code : Code} {env : Env}
    (cell : ListCell world values code env) : code.Settles := by
  cases cell <;> exact trivial

/-- All thunks of the first memory are in the second one as they are. -/
def Memory.Within (h h' : Memory) : Prop :=
  ∀ (i : Nat) (slot : Slot), h[i]? = some slot → h'[i]? = some slot

/-- The thunk has not been evaluated. -/
def Memory.Waiting (h : Memory) (thunk : Nat) : Prop :=
  ∃ slot, h[thunk]? = some slot ∧ slot.state = .pending

/-- The thunk is under evaluation. -/
def Memory.Running (h : Memory) (thunk : Nat) : Prop :=
  ∃ slot, h[thunk]? = some slot ∧ slot.state = .running

/-- The thunk holds an integer. -/
def Memory.Known (h : Memory) (thunk : Nat) (value : Int) : Prop :=
  ∃ env, h[thunk]? = some ⟨.int value, env, .done⟩

theorem Memory.Within.trans {h h' h'' : Memory} (first : h.Within h') (second : h'.Within h'') : h.Within h'' :=
  fun _ _ found => second _ _ (first _ _ found)

theorem Memory.Known.within {h h' : Memory} {thunk : Nat} {value : Int} (known : h.Known thunk value)
    (within : h.Within h') : h'.Known thunk value := by
  obtain ⟨env, found⟩ := known
  exact ⟨env, within _ _ found⟩

/-- The code stands for the definition of the digits: it is its name, or the variable for it in its body. -/
inductive CallsDigits (world : World) (env : Env) : Code → Prop
  | name : CallsDigits world env (.global 25)
  | again {self : Nat} (own : env.head? = some self) (means : world self = some (.recursion .digits)) :
      CallsDigits world env (.var 1)

/-- How far a thunk is evaluated that stands for something. -/
inductive Holds (world : World) (h : Memory) : Meaning → Slot → Prop
  | running {meaning : Meaning} {code : Code} {env : Env} : Holds world h meaning ⟨code, env, .running⟩
  | known {value : Int} {env : Env} : Holds world h (.number value) ⟨.int value, env, .done⟩
  | reckons {value here : Int} {left right : Code} {thunk : Nat} {env : Env} (operand : h.Known thunk here)
      (reckons : Code.Reckons here (.app left right) value) :
      Holds world h (.number value) ⟨.app left right, thunk :: env, .pending⟩
  | single {value : Int} {code : Code} {env : Env} (cell : ListCell world [value] code env) :
      Holds world h (.single value) ⟨code, env, .done⟩
  | literal {value here : Int} {left right : Code} {thunk : Nat} {env : Env} (operand : h.Known thunk here)
      (reckons : Code.Reckons here (.app left right) value) :
      Holds world h (.single value) ⟨.literal (.app left right), thunk :: env, .pending⟩
  | cell {values : List Int} {code : Code} {env : Env} (cell : ListCell world values code env) :
      Holds world h (.list values) ⟨code, env, .done⟩
  | append {values : List Int} {value : Int} {rest head list last operation self : Nat}
      (front : world rest = some (.list values)) (behind : world last = some (.single value))
      (cons : world operation = some .cons) (fold : world self = some (.recursion .fold)) :
      Holds world h (.list (values ++ [value])) ⟨.foldRest, [rest, head, list, last, operation, self], .pending⟩
  | digits {here : Int} {value : Nat} {left right function : Code} {thunk : Nat} {env : Env}
      (operand : h.Known thunk here) (reckons : Code.Reckons here (.app left right) value)
      (fits : fitsInt value = true) (calls : CallsDigits world env function) :
      Holds world h (.list (decimal value)) ⟨.app function (.app left right), thunk :: env, .pending⟩
  | name : Holds world h .cons ⟨.global 11, [], .pending⟩
  | cons {env : Env} : Holds world h .cons ⟨.fn (.fn .pair), env, .done⟩
  | waits {body : Code} {here function : Nat} (half : h[here]? = some ⟨.half, [function], .done⟩)
      (definition : h[function]? = some ⟨.fn (.fn body), [], .done⟩) :
      Holds world h (.recursion (.fn body)) ⟨.app (.var 0) (.var 0), [here, function], .pending⟩
  | unrolled {body : Code} {next : Nat} (again : world next = some (.recursion (.fn body))) :
      Holds world h (.recursion (.fn body)) ⟨.fn body, [next], .done⟩

theorem Holds.cell_of_done {world : World} {h : Memory} {values : List Int} {code : Code} {env : Env}
    (holds : Holds world h (.list values) ⟨code, env, .done⟩) : ListCell world values code env := by
  cases holds with
  | cell cell => exact cell

/-- A recursive definition has not been needed, or its thunk has been evaluated. -/
def Shelf (constants : Array (Option Nat)) (world : World) (h : Memory) (index : Nat) (body : Code) : Prop :=
  constants[index]? = some none ∨ ∃ thunk self, constants[index]? = some (some thunk) ∧
    h[thunk]? = some ⟨body, [self], .done⟩ ∧ world self = some (.recursion body)

/-- A memory in which every thunk holds what it stands for. -/
structure Scene where
  constants : Array (Option Nat)
  heap : Memory
  world : World
  holds : ∀ thunk meaning, world thunk = some meaning →
    ∃ slot, heap[thunk]? = some slot ∧ Holds world heap meaning slot
  shelves : ∀ index body, Recursive index body → Shelf constants world heap index body

/-- What is known of thunks is kept in another memory. -/
structure Grows (world world' : World) (h h' : Memory) : Prop where
  known : ∀ thunk meaning, world thunk = some meaning → world' thunk = some meaning
  done : ∀ (thunk : Nat) (slot : Slot), h[thunk]? = some slot → slot.state = .done → h'[thunk]? = some slot

section Grows

variable {world world' : World} {h h' : Memory}

theorem ListCell.grows {values : List Int} {code : Code} {env : Env} (cell : ListCell world values code env)
    (grows : Grows world world' h h') : ListCell world' values code env := by
  cases cell with
  | empty => exact .empty
  | cons first rest => exact .cons (grows.known _ _ first) (grows.known _ _ rest)

theorem Memory.Known.grows {thunk : Nat} {value : Int} (known : h.Known thunk value)
    (grows : Grows world world' h h') : h'.Known thunk value := by
  obtain ⟨env, found⟩ := known
  exact ⟨env, grows.done _ _ found rfl⟩

theorem CallsDigits.grows {code : Code} {env : Env} (calls : CallsDigits world env code)
    (grows : Grows world world' h h') : CallsDigits world' env code := by
  cases calls with
  | name => exact .name
  | again own means => exact .again own (grows.known _ _ means)

theorem Holds.grows {meaning : Meaning} {slot : Slot} (holds : Holds world h meaning slot)
    (grows : Grows world world' h h') : Holds world' h' meaning slot := by
  cases holds with
  | running => exact .running
  | known => exact .known
  | reckons operand reckons => exact .reckons (operand.grows grows) reckons
  | single cell => exact .single (cell.grows grows)
  | literal operand reckons => exact .literal (operand.grows grows) reckons
  | cell cell => exact .cell (cell.grows grows)
  | append front behind cons fold =>
    exact .append (grows.known _ _ front) (grows.known _ _ behind) (grows.known _ _ cons) (grows.known _ _ fold)
  | digits operand reckons fits calls =>
    exact .digits (operand.grows grows) reckons fits (calls.grows grows)
  | name => exact .name
  | cons => exact .cons
  | waits half definition => exact .waits (grows.done _ _ half rfl) (grows.done _ _ definition rfl)
  | unrolled again => exact .unrolled (grows.known _ _ again)

theorem Shelf.grows {constants : Array (Option Nat)} {index : Nat} {body : Code}
    (shelf : Shelf constants world h index body) (grows : Grows world world' h h') :
    Shelf constants world' h' index body := by
  refine shelf.imp id fun ⟨thunk, self, known, found, means⟩ => ?_
  exact ⟨thunk, self, known, grows.done _ _ found rfl, grows.known _ _ means⟩

theorem Grows.mark {thunk : Nat} (waits : h.Waiting thunk) :
    Grows world world h (h.mark thunk) := by
  obtain ⟨slot, found, pending⟩ := waits
  refine ⟨fun _ _ known => known, fun other slot' found' done => ?_⟩
  grind

end Grows

namespace Scene

/-- A later scene: all that is known stays known, thunks only change by being evaluated, and no thunk is left
under evaluation. -/
structure Evolves (s s' : Scene) : Prop where
  known : ∀ thunk meaning, s.world thunk = some meaning → s'.world thunk = some meaning
  unknown : ∀ thunk slot, s.heap[thunk]? = some slot → s.world thunk = none → s'.world thunk = none
  kept : ∀ thunk slot, s.heap[thunk]? = some slot → (slot.state ≠ .pending ∨ s.world thunk = none) →
    s'.heap[thunk]? = some slot
  quiet : ∀ thunk meaning slot, s'.world thunk = some meaning → s'.heap[thunk]? = some slot →
    slot.state = .running → s.world thunk = some meaning ∧ s.heap[thunk]? = some slot

/-- Known thunks that are under evaluation are lists that are longer than that. -/
def Calm (s : Scene) (bound : Nat) : Prop :=
  ∀ thunk meaning slot, s.world thunk = some meaning → s.heap[thunk]? = some slot → slot.state = .running →
    ∃ values, meaning = .list values ∧ bound < values.length

variable {s s' s'' : Scene} {bound thunk : Nat} {slot : Slot} {meaning : Meaning}

theorem Evolves.refl (s : Scene) : s.Evolves s :=
  ⟨fun _ _ known => known, fun _ _ _ unknown => unknown, fun _ _ found _ => found,
    fun _ _ _ known found _ => ⟨known, found⟩⟩

theorem Evolves.trans (first : s.Evolves s') (second : s'.Evolves s'') : s.Evolves s'' where
  known thunk meaning known := second.known _ _ (first.known _ _ known)
  unknown thunk slot found unknown := by
    have there : s'.heap[thunk]? = some slot := first.kept _ _ found (.inr unknown)
    exact second.unknown _ _ there (first.unknown _ _ found unknown)
  kept thunk slot found still := by
    have there : s'.heap[thunk]? = some slot := first.kept _ _ found still
    exact second.kept _ _ there (still.imp id fun unknown => first.unknown _ _ found unknown)
  quiet thunk meaning slot known found running := by
    obtain ⟨known', found'⟩ := second.quiet _ _ _ known found running
    exact first.quiet _ _ _ known' found' running

theorem Evolves.grows (evolves : s.Evolves s') : Grows s.world s'.world s.heap s'.heap :=
  ⟨evolves.known, fun _ _ found done => evolves.kept _ _ found (.inl (by simp [done]))⟩

theorem Evolves.calm (evolves : s.Evolves s') (calm : s.Calm bound) : s'.Calm bound := by
  intro thunk meaning slot known found running
  obtain ⟨known', found'⟩ := evolves.quiet _ _ _ known found running
  exact calm _ _ _ known' found' running

theorem Calm.mono {less : Nat} (calm : s.Calm bound) (le : less ≤ bound) : s.Calm less := by
  intro thunk meaning slot known found running
  obtain ⟨values, same, longer⟩ := calm _ _ _ known found running
  exact ⟨values, same, by omega⟩

/-- A thunk of a later scene holds what is known of it. -/
theorem Evolves.holds (evolves : s.Evolves s') (means : s.world thunk = some meaning)
    (found : s'.heap[thunk]? = some slot) : Holds s'.world s'.heap meaning slot := by
  obtain ⟨slot', found', holds⟩ := s'.holds _ _ (evolves.known _ _ means)
  cases found.symm.trans found'
  exact holds

theorem lt_size (s : Scene) (known : s.world thunk = some meaning) : thunk < s.heap.size := by
  obtain ⟨slot, found, -⟩ := s.holds _ _ known
  exact (Array.getElem?_eq_some_iff.mp found).1

theorem world_size (s : Scene) : s.world s.heap.size = none := by
  cases known : s.world s.heap.size with
  | none => rfl
  | some meaning => exact absurd (s.lt_size known) (Nat.lt_irrefl _)

/-- Another memory, in which every thunk is as it was or holds what it stands for. -/
def alter (s : Scene) (heap : Memory) (world : World) (grows : Grows s.world world s.heap heap)
    (changes : ∀ thunk meaning, world thunk = some meaning →
      s.world thunk = some meaning ∧ heap[thunk]? = s.heap[thunk]? ∨
        ∃ slot, heap[thunk]? = some slot ∧ Holds world heap meaning slot) : Scene where
  constants := s.constants
  heap
  world
  holds thunk meaning known := by
    rcases changes thunk meaning known with ⟨old, same⟩ | new
    · obtain ⟨slot, found, holds⟩ := s.holds thunk meaning old
      exact ⟨slot, same.trans found, holds.grows grows⟩
    · exact new
  shelves index body recursive := (s.shelves index body recursive).grows grows

/-- Thunks more of which nothing is known. -/
def extend (s : Scene) (heap : Memory) (within : s.heap.Within heap) : Scene :=
  s.alter heap s.world ⟨fun _ _ known => known, fun _ _ found _ => within _ _ found⟩ fun thunk meaning known => by
    obtain ⟨slot, found, -⟩ := s.holds thunk meaning known
    exact .inl ⟨known, (within _ _ found).trans found.symm⟩

theorem evolves_extend {heap : Memory} (s : Scene) (within : s.heap.Within heap) :
    s.Evolves (s.extend heap within) where
  known _ _ known := known
  unknown _ _ _ unknown := unknown
  kept _ _ found _ := within _ _ found
  quiet thunk meaning slot known found running := by
    obtain ⟨slot', found', -⟩ := s.holds thunk meaning known
    cases (within _ _ found').symm.trans found
    exact ⟨known, found'⟩

/-- A thunk more of which nothing is known. -/
def push (s : Scene) (slot : Slot) : Scene :=
  s.extend (s.heap.push slot) fun _ _ found => Memory.push_kept found

theorem evolves_push (s : Scene) (slot : Slot) : s.Evolves (s.push slot) :=
  s.evolves_extend _

/-- A thunk more that stands for something. -/
def learn (s : Scene) (slot : Slot) (meaning : Meaning) (holds : Holds s.world s.heap meaning slot) : Scene :=
  have grows : Grows s.world (Function.update s.world s.heap.size (some meaning)) s.heap (s.heap.push slot) := by
    refine ⟨fun thunk meaning' known => ?_, fun _ _ found _ => Memory.push_kept found⟩
    rwa [Function.update_of_ne (Nat.ne_of_lt (s.lt_size known))]
  s.alter (s.heap.push slot) (Function.update s.world s.heap.size (some meaning)) grows
    fun thunk meaning' known => by
      by_cases new : thunk = s.heap.size
      · subst new
        rw [Function.update_self] at known
        cases known
        exact .inr ⟨slot, Array.getElem?_push_size, holds.grows grows⟩
      · rw [Function.update_of_ne new] at known
        have old := s.lt_size known
        refine .inl ⟨known, ?_⟩
        grind

theorem evolves_learn (s : Scene) (holds : Holds s.world s.heap meaning slot) (idle : slot.state ≠ .running) :
    s.Evolves (s.learn slot meaning holds) where
  known thunk meaning' known := by
    simp only [learn, alter]
    rwa [Function.update_of_ne (Nat.ne_of_lt (s.lt_size known))]
  unknown thunk slot' found unknown := by
    have old := (Array.getElem?_eq_some_iff.mp found).1
    simp only [learn, alter]
    rwa [Function.update_of_ne (Nat.ne_of_lt old)]
  kept _ _ found _ := Memory.push_kept found
  quiet thunk meaning' slot' known found running := by
    simp only [learn, alter] at known found
    by_cases new : thunk = s.heap.size
    · subst new
      rw [Array.getElem?_push_size] at found
      cases found
      exact absurd running idle
    · rw [Function.update_of_ne new] at known
      have old := s.lt_size known
      refine ⟨known, ?_⟩
      grind

theorem world_learn (s : Scene) (holds : Holds s.world s.heap meaning slot) :
    (s.learn slot meaning holds).world s.heap.size = some meaning :=
  Function.update_self ..

/-- A thunk that has not been evaluated is evaluated now. -/
def mark (s : Scene) (thunk : Nat) (waits : s.heap.Waiting thunk) : Scene :=
  s.alter (s.heap.mark thunk) s.world (.mark waits)
    fun other meaning known => by
      obtain ⟨slot, found, pending⟩ := waits
      by_cases same : thunk = other
      · subst same
        refine .inr ⟨{ slot with state := .running }, ?_, .running⟩
        grind
      · refine .inl ⟨known, ?_⟩
        grind

theorem grows_mark (s : Scene) (waits : s.heap.Waiting thunk) :
    Grows s.world (s.mark thunk waits).world s.heap (s.mark thunk waits).heap :=
  .mark waits

/-- A thunk that is under evaluation gets its value. -/
def fill (s : Scene) (thunk : Nat) (code : Code) (env : Env)
    (runs : s.heap.Running thunk)
    (holds : ∀ meaning, s.world thunk = some meaning → Holds s.world s.heap meaning ⟨code, env, .done⟩) : Scene :=
  have grows : Grows s.world s.world s.heap (s.heap.fill thunk code env) :=
    ⟨fun _ _ known => known, fun other slot found done => by
      obtain ⟨slot', found', running⟩ := runs
      grind⟩
  s.alter (s.heap.fill thunk code env) s.world grows fun other meaning known => by
    obtain ⟨slot, found, running⟩ := runs
    by_cases same : thunk = other
    · subst same
      refine .inr ⟨⟨code, env, .done⟩, ?_, (holds meaning known).grows grows⟩
      grind
    · refine .inl ⟨known, ?_⟩
      grind

theorem mark_found (s : Scene) (found : s.heap[thunk]? = some slot) (waits : slot.state = .pending) :
    (s.mark thunk ⟨slot, found, waits⟩).heap[thunk]? = some { slot with state := .running } := by
  simp only [mark, alter]
  grind

theorem fill_found {code : Code} {env : Env} (s : Scene) (runs : s.heap.Running thunk)
    (holds : ∀ meaning, s.world thunk = some meaning → Holds s.world s.heap meaning ⟨code, env, .done⟩) :
    (s.fill thunk code env runs holds).heap[thunk]? = some ⟨code, env, .done⟩ := by
  obtain ⟨slot, found, -⟩ := runs
  simp only [fill, alter]
  grind

/-- A thunk that was not there before, and of which nothing is known, may change. -/
theorem Evolves.elsewhere {later : Scene} (evolves : s.Evolves s') (new : s.heap[thunk]? = none)
    (unknown : s'.world thunk = none) (world : later.world = s'.world)
    (heap : ∀ other, other ≠ thunk → later.heap[other]? = s'.heap[other]?) : s.Evolves later where
  known other meaning known := by
    rw [world]
    exact evolves.known other meaning known
  unknown other slot found unknown := by
    rw [world]
    exact evolves.unknown other slot found unknown
  kept other slot found still := by
    have old : other ≠ thunk := by
      rintro rfl
      cases found.symm.trans new
    exact (heap other old).trans (evolves.kept other slot found still)
  quiet other meaning slot known found running := by
    rw [world] at known
    have old : other ≠ thunk := by
      rintro rfl
      cases known.symm.trans unknown
    exact evolves.quiet other meaning slot known ((heap other old).symm.trans found) running

theorem Evolves.mark {waits : s'.heap.Waiting thunk} (evolves : s.Evolves s')
    (new : s.heap[thunk]? = none) (unknown : s'.world thunk = none) : s.Evolves (s'.mark thunk waits) :=
  evolves.elsewhere new unknown rfl fun other old => by
    simp only [Scene.mark, alter]
    grind

theorem Evolves.fill {code : Code} {env : Env} {runs : s'.heap.Running thunk}
    {holds : ∀ meaning, s'.world thunk = some meaning → Holds s'.world s'.heap meaning ⟨code, env, .done⟩}
    (evolves : s.Evolves s') (new : s.heap[thunk]? = none) (unknown : s'.world thunk = none) :
    s.Evolves (s'.fill thunk code env runs holds) :=
  evolves.elsewhere new unknown rfl fun other old => by
    simp only [Scene.fill, alter]
    grind

/-- A thunk that has been evaluated in between. -/
theorem Evolves.refill {code : Code} {env : Env} {waits : s.heap.Waiting thunk}
    {runs : s'.heap.Running thunk}
    {holds : ∀ meaning, s'.world thunk = some meaning → Holds s'.world s'.heap meaning ⟨code, env, .done⟩}
    (evolves : (s.mark thunk waits).Evolves s') (known : s.world thunk = some meaning) :
    s.Evolves (s'.fill thunk code env runs holds) where
  known := evolves.known
  unknown other slot found unknown := by
    have there : (s.mark thunk waits).heap[other]? = some slot := by
      simp only [Scene.mark, alter]
      grind
    exact evolves.unknown other slot there unknown
  kept other slot found still := by
    obtain ⟨slot', found', pending⟩ := waits
    have there : (s.mark thunk ⟨slot', found', pending⟩).heap[other]? = some slot := by
      simp only [Scene.mark, alter]
      grind
    have later := evolves.kept other slot there still
    simp only [Scene.fill, alter]
    grind
  quiet other meaning slot known found running := by
    simp only [Scene.fill, alter] at known found
    obtain ⟨known', found'⟩ := evolves.quiet other meaning slot known (by grind) running
    refine ⟨known', ?_⟩
    simp only [Scene.mark, alter] at found'
    grind

/-- A list may be evaluated, if no longer ones are to be. -/
theorem Calm.mark {waits : s.heap.Waiting thunk} {values : List Int}
    (calm : s.Calm bound) (known : s.world thunk = some (.list values)) (longer : bound < values.length) :
    (s.mark thunk waits).Calm bound := by
  intro other meaning slot known' found running
  simp only [Scene.mark, alter] at known' found
  by_cases same : thunk = other
  · subst same
    cases known.symm.trans known'
    exact ⟨values, rfl, longer⟩
  · exact calm other meaning slot known' (by grind) running

/-- A recursive definition has got its thunk. -/
def shelve (s : Scene) {index thunk self : Nat} {body : Code} (recursive : Recursive index body)
    (unknown : s.constants[index]? = some none) (found : s.heap[thunk]? = some ⟨body, [self], .done⟩)
    (means : s.world self = some (.recursion body)) : Scene where
  constants := s.constants.set! index (some thunk)
  heap := s.heap
  world := s.world
  holds := s.holds
  shelves other body' recursive' := by
    by_cases same : other = index
    · subst same
      cases recursive.unique recursive'
      refine .inr ⟨thunk, self, ?_, found, means⟩
      grind
    · have old := s.shelves other body' recursive'
      unfold Shelf at old ⊢
      grind

theorem Evolves.shelve {index self : Nat} {body : Code} {recursive : Recursive index body}
    {unknown : s'.constants[index]? = some none} {found : s'.heap[thunk]? = some ⟨body, [self], .done⟩}
    {means : s'.world self = some (.recursion body)} (evolves : s.Evolves s') :
    s.Evolves (s'.shelve recursive unknown found means) :=
  ⟨evolves.known, evolves.unknown, evolves.kept, evolves.quiet⟩

/-- A thunk under evaluation that was not there in a scene before, and of which nothing is known. -/
structure Inner (base s : Scene) (thunk : Nat) (code : Code) (env : Env) : Prop where
  evolves : base.Evolves s
  new : base.heap[thunk]? = none
  unknown : s.world thunk = none
  running : s.heap[thunk]? = some ⟨code, env, .running⟩

section Inner

variable {base : Scene} {code code' : Code} {env env' : Env}

theorem Inner.mark (evolves : base.Evolves s) (new : base.heap[thunk]? = none) (unknown : s.world thunk = none)
    (found : s.heap[thunk]? = some ⟨code, env, .pending⟩) :
    Inner base (s.mark thunk ⟨_, found, rfl⟩) thunk code env where
  evolves := evolves.mark new unknown
  new := new
  unknown := unknown
  running := s.mark_found found rfl

theorem Inner.later (inner : Inner base s thunk code env) (evolves : s.Evolves s') :
    Inner base s' thunk code env where
  evolves := inner.evolves.trans evolves
  new := inner.new
  unknown := evolves.unknown _ _ inner.running inner.unknown
  running := evolves.kept _ _ inner.running (.inl (by simp))

/-- The thunk gets its value. -/
def Inner.fill (inner : Inner base s thunk code env) (code' : Code) (env' : Env) : Scene :=
  s.fill thunk code' env' ⟨_, inner.running, rfl⟩ (by simp [inner.unknown])

theorem Inner.evolves_fill (inner : Inner base s thunk code env) : base.Evolves (inner.fill code' env') :=
  inner.evolves.fill inner.new inner.unknown

theorem Inner.fill_found (inner : Inner base s thunk code env) :
    (inner.fill code' env').heap[thunk]? = some ⟨code', env', .done⟩ :=
  s.fill_found _ _

/-- Other thunks stay as they are. -/
theorem Inner.fill_kept {other : Nat} (inner : Inner base s thunk code env) (found : s.heap[other]? = some slot)
    (idle : slot.state ≠ .running) : (inner.fill code' env').heap[other]? = some slot := by
  have running := inner.running
  simp only [fill, Scene.fill, alter]
  grind

end Inner

end Scene

/-- What showing and writing numbers needs of the prelude. -/
structure Prints (globals : Array Code) : Prop where
  ifThenElse : globals[2]? = some .ifThenElse
  id : globals[8]? = some .identity
  cons : globals[11]? = some (.fn (.fn .pair))
  append : globals[14]? = some .append
  shown : globals[26]? = some .shown
  recursive : ∀ index body, Recursive index body → globals[index]? = some (.fix (.fn body))

end MixfixLambda
