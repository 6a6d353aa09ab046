import MixfixLambda.Source.Span

/-!
# Diagnostics

What a report says: a title, further text, and places in a source.
-/
namespace MixfixLambda

/-- A source text and the path it is known by. -/
structure SourceFile where
  path : String
  text : String
  deriving DecidableEq, Repr, Inhabited

inductive Level where
  | warning | error
  deriving DecidableEq, Repr, Inhabited

/-- A span with what there is to say about it. -/
structure Label where
  span : Span
  text : Option String
  deriving DecidableEq, Repr, Inhabited

/-- The place a diagnostic is about, and others that help. -/
structure Location where
  file : SourceFile
  label : Label
  others : List Label
  deriving DecidableEq, Repr, Inhabited

structure Diagnostic where
  title : String
  /-- Lines below the title and the excerpt of the source. -/
  text : String
  level : Level
  location : Option Location
  deriving DecidableEq, Repr, Inhabited

/-- The diagnostic without its place. -/
def Diagnostic.unplaced (d : Diagnostic) : Diagnostic :=
  { d with location := none }

end MixfixLambda
