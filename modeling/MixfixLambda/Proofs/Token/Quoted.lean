import MixfixLambda.Proofs.Token.Extent
import MixfixLambda.Proofs.Token.Literal

/-!
# Quoted literals are read back

A string has two spellings: the tree printer's, which writes printable characters as they are, and that of messages,
which escapes both kinds of quotes. The reader knows every escape of either, so that both are read as the bytes they
were written from, and so is a printed character.
-/
namespace MixfixLambda

namespace Cursor

theorem asciiByte_writes (b : UInt8) : WritesByte (Text.asciiByte b).toList b := by
  unfold Text.asciiByte
  split
  · next tab => exact .inl ⟨['t'], rfl, escapes_letter (by rw [tab]; rfl)⟩
  split
  · next ret => exact .inl ⟨['r'], rfl, escapes_letter (by rw [ret]; rfl)⟩
  split
  · next newline => exact .inl ⟨['n'], rfl, escapes_letter (by rw [newline]; rfl)⟩
  next newline =>
  split
  · next quote => exact .inl ⟨['\x27'], rfl, escapes_letter (by rw [quote]; rfl)⟩
  split
  · next quote => exact .inl ⟨['\x22'], rfl, escapes_letter (by rw [quote]; rfl)⟩
  next quote =>
  split
  · next slash => exact .inl ⟨['\\'], rfl, escapes_letter (by rw [slash]; rfl)⟩
  next slash =>
  split
  · next printable =>
    have low : b.toNat < 0x80 := Nat.lt_trans printable.2 (by decide)
    -- the characters that a string does not hold as they are have been told apart by their bytes
    have other {c : Char} (different : b ≠ UInt8.ofNat c.toNat) : Char.ofNat b.toNat ≠ c := by
      rintro rfl
      exact different (by rw [toNat_ofNat_low _ low, UInt8.ofNat_toNat])
    exact .inr ⟨_, String.toList_singleton _, other newline, other slash, other quote, utf8EncodeChar_low low⟩
  · exact .inl ⟨_, by rw [String.toList_append]; rfl, escapes_hexByte b⟩

end Cursor

/-- Behind the line break that stands for the start of a text, a token that takes all of the text is the only one. -/
def LexesTo (text : String) (token : Token) : Prop :=
  lexemes text = [.ok ⟨.newline 0, .point 0⟩, .ok ⟨token, ⟨0, text.utf8ByteSize⟩⟩,
    .ok ⟨.eof, .point text.utf8ByteSize⟩]

namespace Lexer

/-- A text that starts with a quote and is read to its end at once. -/
theorem lexesTo_of_quote {text : String} {token : Token} {quote : Char} {tail : List Char} {span : Span} {after : Nat}
    (chars : text.toList = quote :: tail) (kind : quote = '\x22' ∨ quote = '\x27')
    (here : Cursor.lexemeHere ⟨0, text.toList⟩ = (.ok ⟨token, span⟩, ⟨after, []⟩)) : LexesTo text token := by
  have line : quote ≠ '\n' := by rcases kind with rfl | rfl <;> decide
  have first : Cursor.peek ⟨0, text.toList⟩ = some quote := by rw [Cursor.peek, chars]; rfl
  obtain ⟨slice, takes⟩ := Cursor.lexemeHere_takes here first line
  have whole : text.toList = slice := takes.whole.trans (List.append_nil slice)
  have stop : after = text.utf8ByteSize := by
    rw [← Cursor.byteLength_toList, whole]
    exact takes.moved.trans (Nat.zero_add _)
  have extent : span = ⟨0, text.utf8ByteSize⟩ := stop ▸ takes.span
  subst extent stop
  -- nothing is indented, skipped or left over
  have opened : (ofString text).next = (.ok ⟨.newline 0, .point 0⟩, amid 0 text.toList) := by
    simp only [next, ofString, ofChars, Cursor.start, chars, Cursor.indentation, if_true]
    rcases kind with rfl | rfl <;> rfl
  have unblank : Cursor.skipBlanks ⟨0, text.toList⟩ = ⟨0, text.toList⟩ := by
    rw [chars]
    rcases kind with rfl | rfl <;> rfl
  have read : (amid 0 text.toList).next =
      (.ok ⟨token, ⟨0, text.utf8ByteSize⟩⟩, amid text.utf8ByteSize []) := by
    simp only [next, amid, Bool.false_eq_true, if_false, unblank, here]
  have ended : (amid text.utf8ByteSize []).next = (.ok ⟨.eof, .point text.utf8ByteSize⟩, amid text.utf8ByteSize []) :=
    rfl
  rw [LexesTo, MixfixLambda.lexemes, lexemes_of_next opened Token.noConfusion, lexemes_of_next read takes.inline.1,
    lexemes_of_eof ended rfl]

theorem lexesTo_quotedBytes {spell : UInt8 → String} (writes : ∀ b, Cursor.WritesByte (spell b).toList b)
    (bytes : List UInt8) : LexesTo (Cursor.quotedBytes spell bytes) (.str bytes) := by
  obtain ⟨span, after, here⟩ := Cursor.lexemeHere_quotedBytes writes bytes [] 0
  rw [List.append_nil] at here
  exact lexesTo_of_quote (Cursor.toList_quotedBytes spell bytes) (.inl rfl) here

end Lexer

/-- The spelling of a literal by the tree printer, and that of a string in a message, are read as the one token that
was spelled: every sequence of bytes and every character comes back. -/
theorem lexemes_quoted (bytes : List UInt8) (c : Char) (span : Span) :
    LexesTo (Tree.str bytes span).render (.str bytes) ∧
      LexesTo (Token.str bytes).literal (.str bytes) ∧
      LexesTo (Tree.char c span).render (.char c) := by
  refine ⟨?_, ?_, ?_⟩
  · rw [Tree.render]
    exact Lexer.lexesTo_quotedBytes Cursor.sourceByte_writes bytes
  · rw [Token.literal]
    exact Lexer.lexesTo_quotedBytes Cursor.asciiByte_writes bytes
  · obtain ⟨span', after, here⟩ := Cursor.lexemeHere_quotedChar c [] 0
    rw [List.append_nil] at here
    rw [Tree.render]
    exact Lexer.lexesTo_of_quote (Cursor.toList_quotedChar c) (.inr rfl) here

end MixfixLambda
