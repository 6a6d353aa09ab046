/-!
# UTF-8

Bytes are decoded one at a time, so that it does not matter in which pieces they come. The first byte of
a character says how many follow. Whether they spell a character in the shortest way, and one that exists,
is decided when all of them are there; an input that ends before that is truncated.
-/
namespace MixfixLambda.Text

inductive Utf8Error where
  /-- A byte that cannot stand at its place, or bytes that spell no character. -/
  | invalid
  /-- The end of the input within a character. -/
  | truncated
  deriving DecidableEq, Repr

namespace Utf8

/-- A character of which bytes are missing. -/
structure Unfinished where
  /-- The bits of the code point that are known. -/
  value : Nat
  /-- Number of bytes after the next one. -/
  more : Nat
  /-- The least code point that needs so many bytes. -/
  least : Nat
  deriving DecidableEq, Repr

/-- What the first byte of a character tells: the character itself, or how it goes on. -/
def first (b : UInt8) : Except Utf8Error (Char ⊕ Unfinished) :=
  let n := b.toNat
  if n < 0x80 then .ok (.inl (Char.ofNat n))
  else if n < 0xc0 then .error .invalid
  else if n < 0xe0 then .ok (.inr ⟨n - 0xc0, 0, 0x80⟩)
  else if n < 0xf0 then .ok (.inr ⟨n - 0xe0, 1, 0x800⟩)
  else if n < 0xf8 then .ok (.inr ⟨n - 0xf0, 2, 0x10000⟩)
  else .error .invalid

/-- What one byte more tells. -/
def Unfinished.next (u : Unfinished) (b : UInt8) : Except Utf8Error (Char ⊕ Unfinished) :=
  if 0x80 ≤ b.toNat ∧ b.toNat < 0xc0 then
    let value := u.value * 64 + (b.toNat - 0x80)
    match u.more with
    | more + 1 => .ok (.inr { u with value, more })
    | 0 =>
      if u.least ≤ value ∧ value.isValidChar then .ok (.inl (Char.ofNat value))
      else .error .invalid
  else .error .invalid

/-- Decodes bytes behind an unfinished character, if there is one. `done` are the characters so far, last
one first. -/
def decodeFrom (done : List Char) : Option Unfinished → List UInt8 → Except Utf8Error (List Char)
  | none, [] => .ok done.reverse
  | some _, [] => .error .truncated
  | unfinished, b :: bs =>
    match (match unfinished with | none => first b | some u => u.next b) with
    | .error e => .error e
    | .ok (.inl c) => decodeFrom (c :: done) none bs
    | .ok (.inr u) => decodeFrom done (some u) bs

end Utf8

/-- The text that some bytes spell. -/
def decodeUtf8 (bytes : List UInt8) : Except Utf8Error String :=
  (Utf8.decodeFrom [] none bytes).map String.ofList

end MixfixLambda.Text
