import MixfixLambda.Text.Width

/-!
# Lines of a source

A source split into lines, with the byte offsets and the terminal columns of their characters.
-/
namespace MixfixLambda

structure SourceLine where
  /-- Counted from one. -/
  number : Nat
  /-- The byte offset of the line. -/
  start : Nat
  /-- The characters before the line feed. -/
  text : List Char
  deriving DecidableEq, Repr, Inhabited

/-- Number of bytes of characters in UTF-8. -/
def byteLength (text : List Char) : Nat :=
  text.foldr (fun ch total => ch.utf8Size + total) 0

namespace SourceLine

/-- The lines of a text. A text that ends in a line feed has an empty last line. `text` are the characters
of the line so far, last one first. -/
def split (number start : Nat) (text : List Char) : List Char → List SourceLine
  | [] => [⟨number, start, text.reverse⟩]
  | c :: cs =>
    if c = '\n' then
      ⟨number, start, text.reverse⟩ :: split (number + 1) (start + byteLength text + 1) [] cs
    else split number start (c :: text) cs

def ofText (text : String) : List SourceLine :=
  split 1 0 [] text.toList

/-- The line that an offset lies in. -/
def at? (lines : List SourceLine) (offset : Nat) : Option SourceLine :=
  (lines.takeWhile (·.start ≤ offset)).getLast?

/-- Characters whose last byte lies before an offset, relative to the first of them. -/
def charactersBefore (offset : Nat) : List Char → Nat
  | [] => 0
  | c :: cs =>
    if c.utf8Size ≤ offset then charactersBefore (offset - c.utf8Size) cs + 1 else 0

/-- The column of an offset in its line, counted in characters from one. -/
def column (line : SourceLine) (offset : Nat) : Nat :=
  charactersBefore (offset - line.start) line.text + 1

/-- The characters that are printed: all but carriage returns and null characters at the end. -/
def visible (line : SourceLine) : List Char :=
  (line.text.reverse.dropWhile fun c => c = '\r' || c = '\x00').reverse

end SourceLine

/-- A character of a line as it is printed. -/
structure Cell where
  char : Char
  /-- The byte offset in the line. -/
  start : Nat
  /-- Number of terminal columns. -/
  width : Nat
  deriving DecidableEq, Repr, Inhabited

namespace Cell

/-- Tabs go to the next multiple of this column. -/
def tabWidth : Nat :=
  4

/-- The cells of characters that begin at a byte offset and a column. -/
def ofCharsFrom (start column : Nat) : List Char → List Cell
  | [] => []
  | c :: cs =>
    let width := if c = '\t' then tabWidth - column % tabWidth else Text.columns c
    ⟨c, start, width⟩ :: ofCharsFrom (start + c.utf8Size) (column + width) cs

def ofChars (text : List Char) : List Cell :=
  ofCharsFrom 0 0 text

/-- The offset behind the character. -/
def stop (cell : Cell) : Nat :=
  cell.start + cell.char.utf8Size

/-- A character as many times as the cell has columns. -/
def fill (cell : Cell) (c : Char) : String :=
  String.ofList (List.replicate cell.width c)

/-- The character itself; a tab as blanks. -/
def printed (cell : Cell) : String :=
  if cell.char = '\t' then cell.fill ' ' else String.singleton cell.char

/-- Whether a range of bytes has a byte of the cell. -/
def meets (cell : Cell) (start stop : Nat) : Bool :=
  max start cell.start < min stop cell.stop

end Cell

end MixfixLambda
