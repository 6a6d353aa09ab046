import MixfixLambda.Report.Diagnostic
import MixfixLambda.Report.SourceLine

/-!
# Excerpts

Which lines of a source are shown for some labels, and what is marked on them. A label within a line
underlines its characters. A label over several lines has a column of its own in the margin, with a
corner on its first and its last line. Of a long one only the first lines and the last ones are shown.
-/
namespace MixfixLambda

/-- The label that a diagnostic is about, or one of the others. -/
inductive Mark where
  | primary | secondary
  deriving DecidableEq, Repr, Inhabited

/-- A label within one line, by byte offsets in that line. -/
structure Underline where
  mark : Mark
  start : Nat
  stop : Nat
  text : String
  deriving DecidableEq, Repr, Inhabited

/-- Which part of a label over several lines a line has. -/
inductive MarginPart where
  /-- The label starts at a byte offset of the line. -/
  | top (start : Nat)
  | middle
  /-- The label ends at a byte offset of the line. -/
  | bottom (stop : Nat) (text : String)
  deriving DecidableEq, Repr, Inhabited

/-- The part of a label over several lines, and the column that the label has in the margin. -/
structure Margin where
  column : Nat
  mark : Mark
  part : MarginPart
  deriving DecidableEq, Repr, Inhabited

structure MarkedLine where
  line : SourceLine
  /-- By their ranges. -/
  underlines : List Underline
  /-- By their columns. -/
  margins : List Margin
  shown : Bool
  deriving DecidableEq, Repr, Inhabited

/-- The lines of a source as far as they matter to the labels. -/
structure Excerpt where
  /-- All lines of the source. -/
  lines : List MarkedLine
  /-- Number of columns of the margin. -/
  columns : Nat
  /-- Number of digits of the greatest line number. -/
  digits : Nat
  deriving Repr

namespace Excerpt

/-- A long label shows so many lines after its first one. -/
def linesAfterTop : Nat :=
  3

/-- A long label shows so many lines before its last one. -/
def linesBeforeBottom : Nat :=
  1

/-- A label with the first and the last line that it touches. -/
structure Placed where
  mark : Mark
  label : Label
  first : SourceLine
  last : SourceLine

/-- A span that runs past the end of the source points at the end. -/
def clamp (size : Nat) (label : Label) : Label :=
  { label with span := ⟨min label.span.start size, min label.span.stop size⟩ }

def place (lines : List SourceLine) (mark : Mark) (label : Label) : Option Placed := do
  let first ← SourceLine.at? lines label.span.start
  let last ← SourceLine.at? lines label.span.stop
  return ⟨mark, label, first, last⟩

def Placed.isWithinLine (p : Placed) : Bool :=
  p.first.number == p.last.number

def Placed.text (p : Placed) : String :=
  p.label.text.getD ""

/-- A label within a line; an empty one marks one column. -/
def Placed.underline (p : Placed) : Underline :=
  let start := p.label.span.start - p.first.start
  ⟨p.mark, start, max (p.label.span.stop - p.first.start) (start + 1), p.text⟩

/-- Whether the first range does not come after the second one. -/
def Underline.le (a b : Underline) : Bool :=
  a.start < b.start || (a.start == b.start && a.stop ≤ b.stop)

/-- Adds an underline behind those of lesser ranges. Of those with the same range the first one stays
last. -/
def insert (u : Underline) (us : List Underline) : List Underline :=
  let before := us.takeWhile (Underline.le · u)
  let after := us.dropWhile (Underline.le · u)
  match before.getLast? with
  | none => u :: after
  | some last =>
    if last.start = u.start ∧ last.stop = u.stop then before.dropLast ++ u :: last :: after
    else before ++ u :: after

/-- The parts that a label over several lines has on a line. -/
def marginsAt (number : Nat) (p : Placed) (column : Nat) : List Margin :=
  let parts :=
    (if number = p.first.number then [.top (p.label.span.start - p.first.start)] else [])
    ++ (if p.first.number < number ∧ number < p.last.number then [.middle] else [])
    ++ (if number = p.last.number then [.bottom (p.label.span.stop - p.last.start) p.text] else [])
  parts.map (⟨column, p.mark, ·⟩)

/-- Whether a line is among those that a label over several lines shows. -/
def showsLine (number : Nat) (p : Placed) : Bool :=
  number == p.first.number || number == p.last.number
    || (p.first.number < number && number < p.last.number
      && (number - p.first.number ≤ linesAfterTop || p.last.number - number ≤ linesBeforeBottom))

/-- Number of digits of a line number. -/
def digitCount (number : Nat) : Nat :=
  (toString number).length

/-- The excerpt of a source for some labels. -/
def ofLabels (text : String) (labels : List (Mark × Label)) : Excerpt :=
  let source := SourceLine.ofText text
  let placed := labels.filterMap fun (mark, label) =>
    place source mark (clamp text.utf8ByteSize label)
  let within := placed.filter Placed.isWithinLine
  let long := placed.filter (!·.isWithinLine)
  { lines := source.map fun line =>
      let underlines := within.filter (·.first.number == line.number)
      { line
        underlines := underlines.foldl (fun us p => insert p.underline us) []
        margins := long.zipIdx.flatMap fun (p, column) => marginsAt line.number p column
        shown := !underlines.isEmpty || long.any (showsLine line.number) }
    columns := long.length
    digits := placed.foldl (fun digits p =>
      max digits (max (digitCount p.first.number) (digitCount p.last.number))) 0 }

end Excerpt

end MixfixLambda
