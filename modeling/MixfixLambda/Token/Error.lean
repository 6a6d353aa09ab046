import MixfixLambda.Report.Explanation
import MixfixLambda.Source.Integer
import MixfixLambda.Source.Span

/-!
# Lexical errors

Why a text is no sequence of tokens, and the words for it.
-/
namespace MixfixLambda

inductive LexicalCause where
  | unrecognized (c : Char)
  | digitOutOfRadix
  | integerOutOfRange
  | unterminatedString
  | unterminatedChar
  | emptyChar
  | invalidEscape (c : Char)
  | tabIndentation
  deriving DecidableEq, Repr

structure LexicalError where
  cause : LexicalCause
  span : Span
  deriving DecidableEq, Repr

namespace LexicalCause

def message : LexicalCause → String
  | .unrecognized c => "unrecognized character `" ++ c.toString ++ "`"
  | .digitOutOfRadix => "digit out of radix"
  | .integerOutOfRange => "integer literal out of range"
  | .unterminatedString => "unterminated string literal"
  | .unterminatedChar => "unterminated character literal"
  | .emptyChar => "empty character literal"
  | .invalidEscape c => "invalid escape `\\" ++ c.toString ++ "`"
  | .tabIndentation => "tab in indentation"

def explanation : LexicalCause → Explanation
  | .unrecognized _ => ⟨"I don't know what to do with this character", []⟩
  | .digitOutOfRadix => ⟨"This digit is not valid for the number's radix", []⟩
  | .integerOutOfRange =>
    ⟨"This integer does not fit in 64 bits",
      ["Integers range from " ++ toString minInt ++ " to " ++ toString maxInt ++ "."]⟩
  | .unterminatedString => ⟨"Missing closing `\"`", []⟩
  | .unterminatedChar => ⟨"Missing closing `'`", []⟩
  | .emptyChar => ⟨"Character literal has no character", []⟩
  | .invalidEscape _ =>
    ⟨"Unknown escape sequence", ["Known escapes are \\n \\t \\r \\0 \\\\ \\\" \\' and \\xHH."]⟩
  | .tabIndentation => ⟨"Indent with spaces, not tabs", []⟩

end LexicalCause

end MixfixLambda
