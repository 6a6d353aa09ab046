import MixfixLambda.Source.Tag

/-!
# Backtraces

The references to globals that led to a place in a run. Only the newest ones are kept.
-/
namespace MixfixLambda

/-- References to globals, newest first. -/
abbrev Backtrace := List Tag

namespace Backtrace

/-- How many references are kept. -/
def limit : Nat :=
  16

def empty : Backtrace :=
  []

/-- One reference more; the oldest one gives way if there are too many. -/
def push (b : Backtrace) (tag : Tag) : Backtrace :=
  (tag :: b).take limit

def names (b : Backtrace) : List String :=
  b.map Tag.text

/-- The newest reference that is written in the module itself. -/
def moduleTag? (b : Backtrace) : Option Tag :=
  b.find? (·.origin == .module)

theorem length_push_le (b : Backtrace) (tag : Tag) : (b.push tag).length ≤ limit :=
  List.length_take_le ..

end Backtrace

end MixfixLambda
