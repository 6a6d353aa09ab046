import MixfixLambda.Text.GraphemeExtend
import MixfixLambda.Text.Printable

/-!
# Escaped spellings

How bytes and characters are spelled where not every one of them may stand for itself.
-/
namespace MixfixLambda.Text

/-- One lower case hexadecimal digit. -/
def hexDigit (n : Nat) : Char :=
  if n < 10 then Char.ofNat (0x30 + n) else Char.ofNat (0x57 + n)

/-- Two hexadecimal digits of a byte. -/
def hexByte (b : UInt8) : String :=
  String.ofList [hexDigit (b.toNat / 16), hexDigit (b.toNat % 16)]

/-- The bytes in hexadecimal, two digits each. -/
def hexBytes (bytes : List UInt8) : String :=
  String.join (bytes.map hexByte)

/-- A code point in hexadecimal, without leading zeros. -/
def hexNumber (n : Nat) : String :=
  String.ofList (Nat.toDigits 16 n)

/-- The value of a digit in a radix of at most sixteen; letters count in both cases. -/
def digitValue (radix : Nat) (c : Char) : Option Nat :=
  let value :=
    if '0' ≤ c ∧ c ≤ '9' then some (c.toNat - 0x30)
    else if 'a' ≤ c ∧ c ≤ 'f' then some (c.toNat - 0x57)
    else if 'A' ≤ c ∧ c ≤ 'F' then some (c.toNat - 0x37)
    else none
  value.filter (· < radix)

/-- A byte in ASCII: tab, line breaks, both quotes and the backslash after a backslash, other printable
bytes as they are, and the rest as `\x` with two digits. -/
def asciiByte (b : UInt8) : String :=
  if b = 0x09 then "\\t"
  else if b = 0x0d then "\\r"
  else if b = 0x0a then "\\n"
  else if b = 0x27 then "\\'"
  else if b = 0x22 then "\\\""
  else if b = 0x5c then "\\\\"
  else if 0x20 ≤ b ∧ b < 0x7f then (Char.ofNat b.toNat).toString
  else "\\x" ++ hexByte b

/-- The bytes in ASCII. -/
def asciiBytes (bytes : List UInt8) : String :=
  String.join (bytes.map asciiByte)

/-- A character by its code point, in braces. -/
def codePoint (c : Char) : String :=
  "\\u\x7b" ++ hexNumber c.toNat ++ "\x7d"

/-- A character between two quotes of a kind. What has no shape of its own, or would attach to the quote,
is spelled by its code point. -/
def escapedChar (quote c : Char) : String :=
  if c = '\x00' then "\\0"
  else if c = '\t' then "\\t"
  else if c = '\r' then "\\r"
  else if c = '\n' then "\\n"
  else if c = '\\' then "\\\\"
  else if c = quote then "\\" ++ c.toString
  else if isGraphemeExtend c then codePoint c
  else if isPrintable c then c.toString
  else codePoint c

/-- A character in single quotes. -/
def quotedChar (c : Char) : String :=
  "'" ++ escapedChar '\x27' c ++ "'"

/-- A text in double quotes. -/
def quotedText (text : String) : String :=
  "\"" ++ String.join (text.toList.map (escapedChar '"')) ++ "\""

end MixfixLambda.Text
