import MixfixLambda.Machine.Heap

/-!
# The spine

What is left to do with the value that the machine is working on. The spine keeps its length beside
its frames, because every step reports it.
-/
namespace MixfixLambda

inductive Frame where
  /-- An argument that waits for its function. -/
  | arg (thunk : Nat)
  /-- A thunk that will be replaced by the value. -/
  | update (thunk : Nat)
  /-- An operation that collects the values of its arguments, from left to right. -/
  | force (operation : Builtin) (tag : Tag) (values : List Int) (pending : List Nat)
    (backtrace : Backtrace)
  deriving DecidableEq, Repr, Inhabited

def Frame.isArg : Frame → Bool
  | .arg _ => true
  | _ => false

/-- Frames, innermost first. -/
structure Spine where
  frames : List Frame
  depth : Nat
  depth_eq : depth = frames.length
  deriving Repr

namespace Spine

def empty : Spine :=
  ⟨[], 0, rfl⟩

def push (s : Spine) (frame : Frame) : Spine :=
  ⟨frame :: s.frames, s.depth + 1, by simp [s.depth_eq]⟩

/-- The spine without its innermost frame. -/
def pop (s : Spine) : Spine :=
  match s with
  | ⟨[], _, _⟩ => empty
  | ⟨_ :: frames, depth, h⟩ => ⟨frames, depth - 1, by simp [h]⟩

def top? (s : Spine) : Option Frame :=
  s.frames.head?

/-- Number of arguments on top of the spine. -/
def available (s : Spine) : Nat :=
  (s.frames.takeWhile Frame.isArg).length

/-- Takes up to so many arguments off the spine, innermost first. -/
def popArguments : Nat → Spine → List Nat × Spine
  | 0, s => ([], s)
  | count + 1, s =>
    match s.top? with
    | some (.arg thunk) =>
      let (arguments, s) := popArguments count s.pop
      (thunk :: arguments, s)
    | _ => ([], s)

/-- The spine without its innermost frames. -/
def drop (s : Spine) (count : Nat) : Spine :=
  ⟨s.frames.drop count, s.depth - count, by simp [s.depth_eq]⟩

@[simp]
theorem push_frames (s : Spine) (frame : Frame) : (s.push frame).frames = frame :: s.frames :=
  rfl

@[simp]
theorem pop_push (s : Spine) (frame : Frame) : (s.push frame).pop = s := by
  simp [push, pop]

end Spine

end MixfixLambda
