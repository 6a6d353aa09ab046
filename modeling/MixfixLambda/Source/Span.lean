/-!
# Spans

A span is a half-open range of byte offsets into one source text.
-/
namespace MixfixLambda

/-- Byte offsets from `start` up to, not including, `stop`. -/
structure Span where
  start : Nat
  stop : Nat
  deriving DecidableEq, Repr, Inhabited

namespace Span

/-- The empty span at an offset. -/
def point (offset : Nat) : Span :=
  ⟨offset, offset⟩

/-- The span of things that have no place in the source. -/
def origin : Span :=
  point 0

/-- The least span that covers both. -/
def merge (a b : Span) : Span :=
  ⟨min a.start b.start, max a.stop b.stop⟩

/-- Whether the second span lies inside the first. -/
def Contains (outer inner : Span) : Prop :=
  outer.start ≤ inner.start ∧ inner.stop ≤ outer.stop

instance (outer inner : Span) : Decidable (outer.Contains inner) :=
  inferInstanceAs (Decidable (_ ∧ _))

/-- Both ends, with two dots between them. -/
def render (s : Span) : String :=
  toString s.start ++ ".." ++ toString s.stop

@[simp]
theorem merge_self (a : Span) : a.merge a = a := by
  simp [merge]

theorem merge_comm (a b : Span) : a.merge b = b.merge a := by
  simp [merge, Nat.min_comm, Nat.max_comm]

theorem merge_assoc (a b c : Span) : (a.merge b).merge c = a.merge (b.merge c) := by
  simp [merge, Nat.min_assoc, Nat.max_assoc]

theorem merge_contains_left (a b : Span) : (a.merge b).Contains a :=
  ⟨Nat.min_le_left .., Nat.le_max_left ..⟩

theorem merge_contains_right (a b : Span) : (a.merge b).Contains b :=
  ⟨Nat.min_le_right .., Nat.le_max_right ..⟩

end Span

end MixfixLambda
