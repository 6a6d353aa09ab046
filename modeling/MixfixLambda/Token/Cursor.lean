import MixfixLambda.Text.Escape

/-!
# Reading positions

A cursor is the rest of a text with the byte offset where it starts. Reading on at the end of the text
still moves the offset, by one at a time: the text counts as followed by characters of one byte each.
-/
namespace MixfixLambda

structure Cursor where
  /-- The byte offset of the first character of `rest`. -/
  position : Nat
  rest : List Char
  deriving DecidableEq, Repr

namespace Cursor

/-- The start of a text. The reader looks one character ahead, so that it has already read past the
end of an empty text. -/
def start (text : List Char) : Cursor :=
  ⟨if text.isEmpty then 1 else 0, text⟩

def peek (c : Cursor) : Option Char :=
  c.rest.head?

/-- The character after the next one. -/
def peekSecond (c : Cursor) : Option Char :=
  c.rest.tail.head?

/-- The offset behind the next character. -/
def nextPosition (c : Cursor) : Nat :=
  c.position + (c.peek.map Char.utf8Size).getD 1

def advance (c : Cursor) : Cursor :=
  ⟨c.nextPosition, c.rest.tail⟩

/-- The next character, if any, and the position behind it. -/
def pop (c : Cursor) : Option Char × Cursor :=
  (c.peek, c.advance)

/-- Number of bytes of a text in UTF-8. -/
def byteLength (text : List Char) : Nat :=
  text.foldr (fun ch total => ch.utf8Size + total) 0

/-- The longest run of characters of a class. -/
def run (p : Char → Bool) (c : Cursor) : List Char :=
  c.rest.takeWhile p

/-- The position behind the longest run of characters of a class. -/
def skip (p : Char → Bool) (c : Cursor) : Cursor :=
  ⟨c.position + byteLength (c.run p), c.rest.dropWhile p⟩

/-- Both characters that the reader holds and where they stand, as shown when a lexer is traced. -/
def render (c : Cursor) : String :=
  let shown : Option Char → String
    | none => "None"
    | some ch => "Some(" ++ Text.quotedChar ch ++ ")"
  "Lexer \x7b\n\tposition: " ++ toString c.position ++ ",\n\tnext_position: "
    ++ toString c.nextPosition ++ ",\n\tch: " ++ shown c.peek ++ ", next_ch: "
    ++ shown c.peekSecond ++ "\n\x7d"

@[simp]
theorem advance_rest (c : Cursor) : c.advance.rest = c.rest.tail :=
  rfl

@[simp]
theorem pop_snd (c : Cursor) : c.pop.2 = c.advance :=
  rfl

end Cursor

end MixfixLambda
