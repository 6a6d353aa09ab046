import MixfixLambda.Report.Excerpt
import MixfixLambda.Report.Style
import MixfixLambda.Text.Blank

/-!
# Printed excerpts

The lines of an excerpt behind their numbers. Below a line stand carets for the labels within it; the text
of the last one stands behind its caret, those of the others hang below. Labels over several lines are
drawn in the margin between the numbers and the lines.
-/
namespace MixfixLambda

/-- The styles of an excerpt. Both marks take them from here. -/
structure Palette where
  primary : Style
  secondary : Style
  border : Style
  deriving DecidableEq, Repr

namespace Palette

def style (p : Palette) : Mark → Style
  | .primary => p.primary
  | .secondary => p.secondary

/-- The palette of a report. -/
def ofLevel : Level → Palette
  | .error => ⟨.inColour .red, .inColour .blue, .inColour .blue⟩
  | .warning => ⟨.inColour .yellow, .inColour .blue, .inColour .blue⟩

end Palette

/-- The mark that is seen where several meet: the primary one, if it is among them. -/
def Mark.foremost (marks : List Mark) : Option Mark :=
  if marks.contains .primary then some .primary else marks.head?

/-- The caret below a character of a label within a line. -/
def Mark.caret : Mark → Char
  | .primary => '^'
  | .secondary => '-'

/-- The caret at an end of a label over several lines. -/
def Mark.endCaret : Mark → String
  | .primary => "^"
  | .secondary => "\x27"

namespace Excerpt

open StyledText

/-! ## The left side -/

/-- The blanks in place of a line number. -/
def indent (digits : Nat) : Piece :=
  .text ("".pushn ' ' digits ++ " ")

def lineNumber (palette : Palette) (digits number : Nat) : StyledText :=
  let shown := toString number
  inStyle palette.border ("".pushn ' ' (digits - shown.length) ++ shown) ++ [.text " "]

def border (palette : Palette) : StyledText :=
  inStyle palette.border "│"

/-- What stands left of anything below a line. -/
def leftSide (palette : Palette) (digits : Nat) : StyledText :=
  indent digits :: border palette

/-! ## The margin -/

def emptyColumn : StyledText :=
  [.text "  "]

/-- The label of a column goes on here. A line to a caret may cross it. -/
def bar (palette : Palette) (mark : Mark) (crossing : Option Mark) : StyledText :=
  (match crossing with
    | none => [.text " "]
    | some crossing => inStyle (palette.style crossing) "─")
  ++ inStyle (palette.style mark) "│"

/-- A column in which no label is open, with the line to a caret if that crosses it. -/
def freeColumn (palette : Palette) : Option Mark → StyledText
  | none => emptyColumn
  | some crossing => inStyle (palette.style crossing) "──"

def corner (palette : Palette) (mark : Mark) (shape : String) : StyledText :=
  .text " " :: inStyle (palette.style mark) shape

/-- Whether only white space stands before the place where a label starts. Its corner then stands in front
of the line itself. -/
def startsLine (line : List Char) (start : Nat) : Bool :=
  start ≤ byteLength (line.takeWhile Text.isBlank)

def marginOf (margins : List Margin) (column : Nat) : Option Margin :=
  margins.find? (·.column == column)

/-- The margin in front of a line. -/
def sourceMargin (palette : Palette) (columns : Nat) (line : List Char) (margins : List Margin) :
    StyledText :=
  (List.range columns).flatMap fun column =>
    match marginOf margins column with
    | none => emptyColumn
    | some ⟨_, mark, .top start⟩ =>
      if startsLine line start then corner palette mark "╭" else emptyColumn
    | some ⟨_, mark, _⟩ => bar palette mark none

/-- The margin below a line, above the rows that end its labels. -/
def innerMargin (palette : Palette) (columns : Nat) (margins : List Margin) : StyledText :=
  (List.range columns).flatMap fun column =>
    match marginOf margins column with
    | none | some ⟨_, _, .top _⟩ => emptyColumn
    | some ⟨_, mark, _⟩ => bar palette mark none

/-- The margin of the row that starts or ends the label of column `own`, from a column on. The rows of a
line are in the order of their columns. -/
def endMargin (palette : Palette) (margins : List Margin) (own : Nat) (crossing : Option Mark) :
    List Nat → StyledText
  | [] => []
  | column :: columns =>
    match marginOf margins column with
    | none =>
      freeColumn palette crossing ++ endMargin palette margins own crossing columns
    | some ⟨_, mark, part⟩ =>
      let goesOn := bar palette mark crossing ++ endMargin palette margins own crossing columns
      let free := freeColumn palette crossing ++ endMargin palette margins own crossing columns
      match part with
      | .middle => goesOn
      | .top _ =>
        if column < own then goesOn
        else if column = own then
          corner palette mark "╭" ++ endMargin palette margins own (some mark) columns
        else free
      | .bottom _ _ =>
        if own < column then goesOn
        else if column = own then
          corner palette mark "╰" ++ endMargin palette margins own (some mark) columns
        else free

/-! ## Labels within a line -/

/-- The mark that underlines a cell. -/
def underlineMark (underlines : List Underline) (cell : Cell) : Option Mark :=
  Mark.foremost ((underlines.filter fun u => cell.meets u.start u.stop).map (·.mark))

/-- Whether a cell lies in a primary label, on its line or over several. -/
def isPrimary (underlines : List Underline) (margins : List Margin) (cell : Cell) : Bool :=
  underlineMark underlines cell == some .primary
    || margins.any fun m =>
      m.mark == .primary
        && match m.part with
          | .top start => start ≤ cell.start
          | .middle => true
          | .bottom stop _ => cell.stop ≤ stop

/-- The end of the rightmost underline. -/
def rightmostStop (underlines : List Underline) : Nat :=
  underlines.foldl (fun stop u => max stop u.stop) 0

/-- The start of the rightmost underline. -/
def rightmostStart (underlines : List Underline) : Nat :=
  underlines.foldl (fun start u => max start u.start) 0

/-- The position of the underline whose text stands behind its caret: the last one of those that end
rightmost, if it has a text and meets no other one. -/
def trailing (underlines : List Underline) : Option (Underline × Nat) := do
  let candidates := underlines.zipIdx.filter (·.1.stop == rightmostStop underlines)
  let (u, position) ← candidates.getLast?
  let others := underlines.eraseIdx position
  if u.text.isEmpty || others.any (fun v => max u.start v.start < min u.stop v.stop) then none
  else some (u, position)

/-- The underlines whose texts hang below. -/
def hanging (underlines : List Underline) : List Underline :=
  let rest := match trailing underlines with
    | none => underlines
    | some (_, position) => underlines.eraseIdx position
  rest.filter (!·.text.isEmpty)

/-- The carets, and the text behind the last of them. One cell more than the line has takes the caret of a
label at its end. -/
def caretRow (palette : Palette) (line : List Char) (underlines : List Underline) : StyledText :=
  let stop := rightmostStop underlines
  let ending : Cell := ⟨'\x00', byteLength line, 1⟩
  let carets := (Cell.ofChars line ++ [ending]).map fun cell =>
    match underlineMark underlines cell with
    | some mark => (some (palette.style mark), cell.fill mark.caret)
    | none => (none, if cell.start < stop then cell.fill ' ' else "")
  runs none carets
    ++ match trailing underlines with
      | none => []
      | some (u, _) => .text " " :: inStyle (palette.style u.mark) u.text

/-- Vertical lines that lead from carets down to their texts. -/
def pointers (palette : Palette) (underlines : List Underline) (cells : List Cell) : StyledText :=
  cells.flatMap fun cell =>
    let marks := ((hanging underlines).filter fun u =>
      cell.start ≤ u.start && u.start < cell.stop).map (·.mark)
    let blanks (count : Nat) : StyledText :=
      if cell.start ≤ rightmostStart underlines then [.text ("".pushn ' ' count)] else []
    match Mark.foremost marks with
    | none => blanks cell.width
    | some mark => inStyle (palette.style mark) "│" ++ blanks (cell.width - 1)

/-- The rows below a line with the carets and texts of the labels within it. -/
def underlineRows (palette : Palette) (line : List Char) (underlines : List Underline) :
    List StyledText :=
  if underlines.isEmpty then []
  else
    let cells := Cell.ofChars line
    let below := hanging underlines
    let texts := below.reverse.map fun u =>
      pointers palette underlines (cells.takeWhile (·.start < u.start))
        ++ inStyle (palette.style u.mark) u.text
    caretRow palette line underlines
      :: if below.isEmpty then [] else pointers palette underlines cells :: texts

/-! ## Labels over several lines -/

/-- The horizontal line below some cells, and the caret at its end. -/
def endLine (palette : Palette) (mark : Mark) (cells : List Cell) (text : String) : StyledText :=
  let shown := if text.isEmpty then "" else " " ++ text
  inStyle (palette.style mark) (String.join (cells.map (·.fill '─')) ++ mark.endCaret ++ shown)

/-- The rows below a line that start and end labels over several lines. -/
def endRows (palette : Palette) (columns : Nat) (line : List Char) (margins : List Margin) :
    List StyledText :=
  let cells := Cell.ofChars line
  let row (m : Margin) (cells : List Cell) (text : String) : StyledText :=
    endMargin palette margins m.column none (List.range columns) ++ endLine palette m.mark cells text
  margins.filterMap fun m =>
    match m.part with
    | .middle => none
    | .top start =>
      if startsLine line start then none
      else some (row m (cells.takeWhile (·.start ≤ start)) "")
    | .bottom stop text => some (row m (cells.takeWhile (·.start < stop)) text)

/-! ## The whole excerpt -/

def lineFeed : StyledText :=
  [.text "\n"]

/-- A line with all that stands below it. -/
def printLine (palette : Palette) (e : Excerpt) (m : MarkedLine) (underlines : List Underline) :
    StyledText :=
  let line := m.line.visible
  let source := (Cell.ofChars line).map fun cell =>
    (if isPrimary underlines m.margins cell then some palette.primary else none, cell.printed)
  let below := underlineRows palette line underlines
  lineNumber palette e.digits m.line.number ++ border palette
    ++ sourceMargin palette e.columns line m.margins ++ .text " " :: runs none source ++ lineFeed
    ++ below.flatMap (fun row =>
      leftSide palette e.digits ++ innerMargin palette e.columns m.margins ++ .text " " :: row
        ++ lineFeed)
    ++ (endRows palette e.columns line m.margins).flatMap fun row =>
      leftSide palette e.digits ++ row ++ lineFeed

/-- What stands between two lines that are shown: nothing if they are neighbours, the line between them if
there is just one, and else a sign that lines are left out. -/
def printGap (palette : Palette) (e : Excerpt) (before after : MarkedLine) : StyledText :=
  if after.line.number = before.line.number + 1 then []
  else
    match e.lines.find? fun m =>
      m.line.number == before.line.number + 1 && after.line.number == m.line.number + 1 with
    | some between => printLine palette e between []
    | none =>
      indent e.digits :: inStyle palette.border "·" ++ innerMargin palette e.columns before.margins
        ++ lineFeed

/-- The lines that are shown, from one of them on. -/
def printLines (palette : Palette) (e : Excerpt) : List MarkedLine → StyledText
  | [] => []
  | [m] => printLine palette e m m.underlines
  | m :: next :: rest =>
    printLine palette e m m.underlines ++ printGap palette e m next
      ++ printLines palette e (next :: rest)

/-- The excerpt below a line that says where it is from. -/
def print (palette : Palette) (e : Excerpt) (place : String) : StyledText :=
  indent e.digits :: inStyle palette.border "┌─" ++ [.text (" " ++ place)] ++ lineFeed
    ++ leftSide palette e.digits ++ innerMargin palette e.columns [] ++ lineFeed
    ++ printLines palette e (e.lines.filter (·.shown))

end Excerpt

end MixfixLambda
