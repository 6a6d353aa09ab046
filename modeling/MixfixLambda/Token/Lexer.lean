import MixfixLambda.Text.Blank
import MixfixLambda.Text.Numeric
import MixfixLambda.Token.Basic
import MixfixLambda.Token.Cursor
import MixfixLambda.Token.Error

/-!
# Reading tokens

`Lexer.next` reads one lexeme. Blanks and comments between lexemes are dropped, except for the spaces at
the start of a line: every line break, and the start of the text, yields a `newline` token with the
width of the next line that is not blank. A refused lexeme leaves the lexer behind what it has read
of it, so that reading may go on.
-/
namespace MixfixLambda

/-- The outcome of reading from a text, and where reading stopped. -/
abbrev Scan (α : Type) := Except LexicalError α × Cursor

namespace Cursor

/-- A token that starts at `start` and ends here. -/
def lexeme (c : Cursor) (start : Nat) (token : Token) : Scan Lexeme :=
  (.ok ⟨token, ⟨start, c.position⟩⟩, c)

/-- Refuses what stands between `start` and here. -/
def refuse (c : Cursor) (start : Nat) (cause : LexicalCause) : Scan α :=
  (.error ⟨cause, ⟨start, c.position⟩⟩, c)

/-- The indentation of the next line that is not blank. `width` counts the spaces of the line so far;
in a comment everything up to the line break is dropped. -/
def indentationFrom (position width : Nat) (comment : Bool) : List Char → Scan Lexeme
  | [] => lexeme ⟨position, []⟩ position .eof
  | ch :: rest =>
    if ch = '\n' then indentationFrom (position + 1) 0 false rest
    else if comment then indentationFrom (position + ch.utf8Size) width true rest
    else if ch = ' ' then indentationFrom (position + 1) (width + 1) false rest
    else if ch = '\r' then indentationFrom (position + 1) width false rest
    else if ch = '\t' then
      (.error ⟨.tabIndentation, ⟨position, position + 1⟩⟩, ⟨position, ch :: rest⟩)
    else if ch = '-' ∧ rest.head? = some '-' then indentationFrom (position + 1) width true rest
    else lexeme ⟨position, ch :: rest⟩ position (.newline width)

def indentation (c : Cursor) : Scan Lexeme :=
  indentationFrom c.position 0 false c.rest

/-- The escapes of one letter, and the byte that each of them spells. -/
def escapedByte : Char → Option UInt8
  | 'n' => some 0x0a
  | 't' => some 0x09
  | 'r' => some 0x0d
  | '0' => some 0x00
  | '\\' => some 0x5c
  | '\x22' => some 0x22
  | '\x27' => some 0x27
  | _ => none

/-- An escape, from its backslash on. Every escape spells one byte. -/
def escape (c : Cursor) : Scan UInt8 :=
  let start := c.position
  let (ch, c) := c.advance.pop
  match ch with
  | none => c.refuse start .unterminatedString
  | some 'x' =>
    let (high, c) := c.pop
    let (low, c) := c.pop
    match high.bind (Text.digitValue 16), low.bind (Text.digitValue 16) with
    | some high, some low => (.ok (UInt8.ofNat (high * 16 + low)), c)
    | _, _ => c.refuse start (.invalidEscape 'x')
  | some ch =>
    match escapedByte ch with
    | some byte => (.ok byte, c)
    | none => c.refuse start (.invalidEscape ch)

theorem escape_rest_length_lt (c : Cursor) (h : c.rest ≠ []) :
    c.escape.2.rest.length < c.rest.length := by
  have pos : 0 < c.rest.length := List.length_pos_iff.2 h
  unfold escape
  simp only [pop]
  split
  · simp [refuse]; omega
  · split <;> simp [refuse] <;> omega
  · split <;> simp [refuse] <;> omega

/-- The rest of a string literal up to its closing quote; `bytes` holds what was read of it, last byte
first. -/
def stringFrom (start : Nat) (bytes : List UInt8) (c : Cursor) : Scan Lexeme :=
  match _ : c.rest with
  | [] => c.refuse start .unterminatedString
  | ch :: _ =>
    if ch = '\n' then c.refuse start .unterminatedString
    else if ch = '\x22' then c.advance.lexeme start (.str bytes.reverse)
    else if ch = '\\' then
      match _ : c.escape with
      | (.ok byte, c') => stringFrom start (byte :: bytes) c'
      | (.error error, c') => (.error error, c')
    else stringFrom start ((String.utf8EncodeChar ch).reverse ++ bytes) c.advance
termination_by c.rest.length
decreasing_by
  · have := escape_rest_length_lt c (by simp [*])
    simp_all
  · simp [*]

/-- A character literal, from its opening quote on. -/
def charLiteral (c : Cursor) : Scan Lexeme :=
  let start := c.position
  let c := c.advance
  let body : Scan Char :=
    match c.peek with
    | none => c.refuse start .unterminatedChar
    | some '\x27' => c.advance.refuse start .emptyChar
    | some '\n' => c.refuse start .unterminatedChar
    | some '\\' =>
      match c.escape with
      | (.ok byte, c) => (.ok (Char.ofNat byte.toNat), c)
      | (.error error, c) => (.error error, c)
    | some ch => (.ok ch, c.advance)
  match body with
  | (.error error, c) => (.error error, c)
  | (.ok value, c) =>
    if c.peek = some '\x27' then c.advance.lexeme start (.char value)
    else c.refuse start .unterminatedChar

/-- What is known of a number after some of its characters. -/
structure NumberPrefix where
  /-- The value, as long as it fits. -/
  value : Option Nat
  digits : Nat
  outOfRadix : Bool
  deriving DecidableEq, Repr

/-- A value that fits into a positive integer. -/
def fitting (n : Nat) : Option Nat :=
  if (n : Int) ≤ maxInt then some n else none

def NumberPrefix.push (radix : Nat) (n : NumberPrefix) (ch : Char) : NumberPrefix :=
  if ch = '_' then n
  else
    match Text.digitValue radix ch with
    | some digit =>
      { n with
        value := n.value.bind fun v => (fitting (v * radix)).bind fun v => fitting (v + digit)
        digits := n.digits + 1 }
    | none => { n with outOfRadix := true }

/-- The radix that a number starts with, if it names one. -/
def radix? (c : Cursor) : Option Nat :=
  match c.peek, c.peekSecond with
  | some '0', some ch =>
    if ch = 'x' ∨ ch = 'X' then some 16
    else if ch = 'o' ∨ ch = 'O' then some 8
    else if ch = 'b' ∨ ch = 'B' then some 2
    else none
  | _, _ => none

def isNumberChar (ch : Char) : Bool :=
  Text.isAlphanumeric ch || ch == '_'

/-- A number is the longest run of letters, numbers and `_`. A character that is no digit of the radix
is a worse fault than a value out of range. -/
def number (c : Cursor) : Scan Lexeme :=
  let start := c.position
  let (radix, c) :=
    match c.radix? with
    | some radix => (radix, c.advance.advance)
    | none => (10, c)
  let n := (c.run isNumberChar).foldl (NumberPrefix.push radix) ⟨some 0, 0, false⟩
  let c := c.skip isNumberChar
  if n.outOfRadix ∨ n.digits = 0 then c.refuse start .digitOutOfRadix
  else
    match n.value with
    | some value => c.lexeme start (.int value)
    | none => c.refuse start .integerOutOfRange

/-- Everything of a class from here on, as one lexeme. -/
def lexemeOf (p : Char → Bool) (token : String → Token) (c : Cursor) : Scan Lexeme :=
  (c.skip p).lexeme c.position (token (String.ofList (c.run p)))

/-- The next character as an operator. -/
def single (c : Cursor) (text : String) : Scan Lexeme :=
  c.advance.lexeme c.position (.operator text)

def isNameChar (ch : Char) : Bool :=
  Text.isAlphanumeric ch || ch == '_' || ch == '\x27'

/-- The lexeme at the cursor, which stands on no blank and no comment. A character that starts no lexeme
is refused without being read. -/
def lexemeHere (c : Cursor) : Scan Lexeme :=
  match c.peek with
  | none => c.lexeme c.position .eof
  | some ch =>
    if ch = '\n' then c.advance.indentation
    else if ch = '\x22' then stringFrom c.position [] c.advance
    else if ch = '\x27' then c.charLiteral
    else if ch.isDigit then c.number
    else
      match unicodeAlias ch with
      | some text => c.single text
      | none =>
        if Text.isAlphabetic ch || ch == '_' then c.lexemeOf isNameChar .name
        else if isPunctuation ch then c.single ch.toString
        else if isSymbolChar ch then c.lexemeOf isSymbolChar .operator
        else if 0x80 ≤ ch.toNat && !Text.isControl ch && !Text.isBlank ch then
          c.single ch.toString
        else (.error ⟨.unrecognized ch, ⟨c.position, c.nextPosition⟩⟩, c)

def isLineBlank (ch : Char) : Bool :=
  ch == ' ' || ch == '\t' || ch == '\r' || ch == '\x0c'

/-- Past the blanks of this line, and past a comment behind them. -/
def skipBlanks (c : Cursor) : Cursor :=
  let c := c.skip isLineBlank
  if c.peek = some '-' ∧ c.peekSecond = some '-' then c.skip (· != '\n') else c

end Cursor

/-- A text that is being read. -/
structure Lexer where
  cursor : Cursor
  /-- Nothing has been read yet: the indentation of the first line comes next. -/
  fresh : Bool
  deriving DecidableEq, Repr

namespace Lexer

def ofChars (text : List Char) : Lexer :=
  ⟨Cursor.start text, true⟩

def ofString (text : String) : Lexer :=
  ofChars text.toList

/-- The next lexeme and the lexer behind it; at the end of the text, `eof` again and again. -/
def next (l : Lexer) : Except LexicalError Lexeme × Lexer :=
  let (found, cursor) := if l.fresh then l.cursor.indentation else l.cursor.skipBlanks.lexemeHere
  (found, ⟨cursor, false⟩)

end Lexer

end MixfixLambda
