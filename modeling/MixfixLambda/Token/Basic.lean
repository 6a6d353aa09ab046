import MixfixLambda.Source.Span
import MixfixLambda.Text.Escape

/-!
# Tokens

The lexemes of the language and the classes of characters they are made of.
-/
namespace MixfixLambda

/-- One lexeme, without its place. -/
inductive Token where
  /-- A letter or `_`, then letters, numbers, `_` and quotes. -/
  | name (text : String)
  | int (value : Int)
  /-- A string literal is a sequence of bytes: the characters of the source in UTF-8, and escapes. -/
  | str (bytes : List UInt8)
  | char (value : Char)
  /-- A run of symbol characters, or one character of punctuation. -/
  | operator (text : String)
  /-- A line break, with the number of spaces before the next line that is not blank. -/
  | newline (width : Nat)
  | eof
  deriving DecidableEq, Repr, Inhabited

/-- A token and where it stands. -/
structure Lexeme where
  token : Token
  span : Span
  deriving DecidableEq, Repr, Inhabited

/-- Characters that join into one operator. -/
def isSymbolChar (c : Char) : Bool :=
  ['!', '#', '$', '%', '&', '*', '+', '-', '.', '/', ':', '<', '=', '>', '?', '@', '^', '|',
    '~'].contains c

/-- Characters that are an operator each. -/
def isPunctuation (c : Char) : Bool :=
  ['(', ')', '[', ']', '\x7b', '\x7d', ',', ';', '\\', '\x60'].contains c

/-- Other ways to write operators of the default grammar. -/
def unicodeAlias (c : Char) : Option String :=
  match c with
  | '→' => some "->"
  | 'λ' => some "\\"
  | '≠' => some "!="
  | '≤' => some "<="
  | '≥' => some ">="
  | '∘' => some "."
  | _ => none

namespace Token

/-- The text that syntax rules are looked up by. -/
def symbol : Token → Option String
  | .name text | .operator text => some text
  | _ => none

/-- The token as a message quotes it. -/
def literal : Token → String
  | .name text | .operator text => text
  | .int value => toString value
  | .str bytes => "\"" ++ Text.asciiBytes bytes ++ "\""
  | .char value => Text.quotedChar value
  | .newline _ => "newline"
  | .eof => "end of file"

end Token

end MixfixLambda
