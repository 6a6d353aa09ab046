import MixfixLambda.Bind.Encoding
import MixfixLambda.Proofs.Machine.Evaluation

/-!
# Recursive definitions at work

A definition that mentions itself is bound by a fixed-point combinator. On the heap that is a thunk which, when
it is needed, becomes the body of the definition with a new thunk of the same kind for the name: the definition
unrolls once for each call.
-/
namespace MixfixLambda

namespace Memory

/-- All thunks but the given one are as they were. -/
def Keeps (touched : Nat) (h h' : Memory) : Prop :=
  ∀ i c, h[i]? = some c → i ≠ touched → h'[i]? = some c

variable {h : Memory} {thunk i : Nat} {c : Slot} {code : Code} {env : Env}

@[grind =]
theorem getElem?_mark : (h.mark thunk)[i]? = if thunk = i then h[i]?.map ({ · with state := .running }) else h[i]? :=
  Array.getElem?_modify

@[grind =]
theorem getElem?_fill :
    (h.fill thunk code env)[i]? = if thunk = i then h[i]?.map (fun _ => ⟨code, env, .done⟩) else h[i]? :=
  Array.getElem?_modify

@[simp, grind =]
theorem size_mark : (h.mark thunk).size = h.size :=
  Array.size_modify

@[simp, grind =]
theorem size_fill : (h.fill thunk code env).size = h.size :=
  Array.size_modify

theorem push_kept {new : Slot} (found : h[i]? = some c) : (h.push new)[i]? = some c := by
  grind

theorem push_new {new : Slot} (last : i = h.size) : (h.push new)[i]? = some new :=
  last ▸ Array.getElem?_push_size

theorem mark_kept (found : h[i]? = some c) (other : thunk ≠ i) : (h.mark thunk)[i]? = some c := by
  rw [getElem?_mark, if_neg other, found]

end Memory

namespace Code

/-- One of the two halves of the combinator. -/
def half : Code :=
  .fn (.app (.var 1) (.app (.var 0) (.var 0)))

/-- A recursive definition, given as a function of itself. -/
def fix (f : Code) : Code :=
  .app (.fn (.app half half)) f

example (t : Term) : (Term.app Encoding.fix t).code = .fix t.code :=
  rfl

end Code

/-- The thunk stands for a recursive definition that has not been unrolled. -/
def Memory.Recurs (h : Memory) (self : Nat) (body : Code) : Prop :=
  ∃ here function, h[self]? = some ⟨.app (.var 0) (.var 0), [here, function], .pending⟩ ∧
    h[here]? = some ⟨Code.half, [function], .done⟩ ∧ h[function]? = some ⟨.fn body, [], .done⟩

namespace Memory

variable {self other : Nat} {body : Code}

/-- It still does where its own thunk and all functions are kept. -/
theorem Recurs.keeps {h h' : Memory} (recursion : h.Recurs self body)
    (keeps : ∀ (i : Nat) (c : Slot), h[i]? = some c →
      (i = self ∧ c.state = .pending ∧ c.code = .app (.var 0) (.var 0) ∨
        c.state = .done ∧ ∃ inner, c.code = .fn inner) → h'[i]? = some c) : h'.Recurs self body := by
  obtain ⟨here, function, pending, half, definition⟩ := recursion
  exact ⟨here, function, keeps _ _ pending (.inl ⟨rfl, rfl, rfl⟩), keeps _ _ half (.inr ⟨rfl, _, rfl⟩),
    keeps _ _ definition (.inr ⟨rfl, _, rfl⟩)⟩

/-- Changes to one other thunk without a value do not matter. -/
theorem Recurs.keeps_but {h h' : Memory} {c : Slot} (recursion : h.Recurs self body) (keeps : h.Keeps other h')
    (there : h[other]? = some c) (waiting : c.state ≠ .done)
    (apart : self ≠ other ∨ c.code ≠ .app (.var 0) (.var 0)) : h'.Recurs self body := by
  refine recursion.keeps fun i c' found kind => keeps i c' found ?_
  rintro rfl
  cases there.symm.trans found
  rcases kind with ⟨same, _, code⟩ | ⟨done, _⟩
  · exact apart.elim (fun apart => apart same.symm) fun apart => apart code
  · exact waiting done

/-- Different definitions have different thunks. -/
theorem Recurs.apart {h : Memory} {body' : Code} (recursion : h.Recurs self body) (recursion' : h.Recurs other body')
    (different : body ≠ body') : self ≠ other := by
  rintro rfl
  obtain ⟨here, function, pending, half, definition⟩ := recursion
  obtain ⟨here', function', pending', half', definition'⟩ := recursion'
  grind

end Memory

namespace State

variable {globals : Array Code} {Q : State → Prop} {constants : Array (Option Nat)} {heap : Memory}
  {streams : Streams} {frames : List Wait} {env : Env} {body : Code}

/-- A half is applied: the definition gets a thunk for itself. -/
theorem Leads.half {here function : Nat}
    (definition : heap[function]? = some ⟨.fn body, [], .done⟩)
    (leads : Leads globals Q ⟨constants, heap.push ⟨.app (.var 0) (.var 0), [here, function], .pending⟩, streams,
      frames, body, [heap.size]⟩) :
    Leads globals Q ⟨constants, heap, streams, .arg here :: frames, Code.half, [function]⟩ := by
  have definition' : (heap.push ⟨.app (.var 0) (.var 0), [here, function], .pending⟩)[function]? =
      some ⟨.fn body, [], .done⟩ := by grind
  exact .bind (.delayApp (.lookup rfl (.value definition' (.bind leads))))

/-- A recursive definition is unrolled when it is needed. -/
theorem Leads.unroll {self depth : Nat} (bound : env[depth]? = some self) (recursion : heap.Recurs self (.fn body))
    (leads : ∀ heap' next, heap.Keeps self heap' → heap'.Recurs next (.fn body) →
      Leads globals Q ⟨constants, heap', streams, frames, .fn body, [next]⟩) :
    Leads globals Q ⟨constants, heap, streams, frames, .var depth, env⟩ := by
  obtain ⟨here, function, pending, half, definition⟩ := recursion
  have half' : (heap.mark self)[here]? = some ⟨Code.half, [function], .done⟩ := by grind
  have definition' : (heap.mark self)[function]? = some ⟨.fn (.fn body), [], .done⟩ := by grind
  refine .lookup bound (.evaluate pending (.share rfl (.lookup rfl (.value half' ?_))))
  refine .half definition' (.update trivial (leads _ _ ?_ ?_))
  · intro i c found other
    grind
  · refine ⟨here, function, ?_⟩
    grind

/-- A recursive definition is needed for the first time. -/
theorem Leads.recursive {index : Nat} (found : globals[index]? = some (.fix (.fn (.fn body))))
    (unknown : constants[index]? = some none)
    (leads : ∀ (heap' : Memory) self, (∀ (i : Nat) (c : Slot), heap[i]? = some c → heap'[i]? = some c) →
      heap'.Recurs self (.fn body) →
      Leads globals Q ⟨constants.set! index (some heap.size), heap', streams, frames, .fn body, [self]⟩) :
    Leads globals Q ⟨constants, heap, streams, frames, .global index, env⟩ := by
  refine .constant found rfl unknown (.delayFn (.bind (.delayFn ?_)))
  refine .half (show _ = some (Slot.mk (.fn (.fn body)) [] .done) from ?_) (.update trivial (leads _ _ ?_ ?_))
  · grind
  · intro i c found
    grind
  · refine ⟨heap.size + 2, heap.size + 1, ?_⟩
    unfold Code.half
    grind

end State

end MixfixLambda
