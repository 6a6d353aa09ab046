import MixfixLambda.Token.Lexer

/-!
# Token streams

The tokens of a text, read one after the other up to its end or to the first refused lexeme. The
reading ends because every lexeme but the first and the last takes at least one character
(`Lexer.remaining_next_lt`).
-/
namespace MixfixLambda

namespace Cursor

theorem rest_of_peek {c : Cursor} {ch : Char} (h : c.peek = some ch) : c.rest = ch :: c.rest.tail := by
  obtain ⟨position, text⟩ := c
  cases text <;> cases h
  rfl

theorem skip_suffix (p : Char → Bool) (c : Cursor) : (c.skip p).rest <:+ c.rest :=
  List.dropWhile_suffix p

theorem advance_suffix (c : Cursor) : c.advance.rest <:+ c.rest :=
  List.tail_suffix c.rest

/-- The next character is skipped if it is of the class. -/
theorem skip_suffix_advance {p : Char → Bool} {c : Cursor} {ch : Char} (h : c.peek = some ch)
    (hp : p ch = true) : (c.skip p).rest <:+ c.advance.rest := by
  rw [skip, rest_of_peek h, List.dropWhile_cons_of_pos hp]
  exact List.dropWhile_suffix p

theorem escape_suffix (c : Cursor) : c.escape.2.rest <:+ c.rest := by
  have second : c.advance.advance.rest <:+ c.rest :=
    (advance_suffix _).trans (advance_suffix c)
  have fourth : c.advance.advance.advance.advance.rest <:+ c.rest :=
    ((advance_suffix _).trans (advance_suffix _)).trans second
  unfold escape
  simp only [pop]
  split
  · exact second
  · split <;> exact fourth
  · split <;> exact second

theorem indentationFrom_suffix (position width : Nat) (comment : Bool) (text : List Char) :
    (indentationFrom position width comment text).2.rest <:+ text := by
  induction text generalizing position width comment with
  | nil => simp [indentationFrom, lexeme]
  | cons ch rest ih =>
    have behind (position width : Nat) (comment : Bool) :
        (indentationFrom position width comment rest).2.rest <:+ ch :: rest :=
      (ih position width comment).trans (List.suffix_cons ch rest)
    unfold indentationFrom
    repeat' split
    all_goals first
      | exact behind ..
      | simp [lexeme]

theorem indentation_suffix (c : Cursor) : c.indentation.2.rest <:+ c.rest :=
  indentationFrom_suffix ..

theorem stringFrom_suffix (start : Nat) (bytes : List UInt8) (c : Cursor) :
    (stringFrom start bytes c).2.rest <:+ c.rest := by
  fun_induction stringFrom start bytes c with
  | case1 => simp [refuse]
  | case2 => simp [refuse]
  | case3 _ c => exact advance_suffix c
  | case4 _ c _ _ _ escaped _ _ _ ih =>
    have := escape_suffix c
    rw [escaped] at this
    exact ih.trans this
  | case5 _ c _ _ _ escaped =>
    have := escape_suffix c
    rwa [escaped] at this
  | case6 _ c _ _ _ _ _ _ ih => exact ih.trans (advance_suffix c)

theorem charLiteral_suffix (c : Cursor) : c.charLiteral.2.rest <:+ c.advance.rest := by
  have second := advance_suffix c.advance
  have escaped := escape_suffix c.advance
  unfold charLiteral
  dsimp only
  split
  · next body =>
    split at body
    · cases body
      exact List.suffix_rfl
    · cases body
      exact second
    · cases body
      exact List.suffix_rfl
    · split at body
      · cases body
      · next failed =>
        cases body
        rwa [failed] at escaped
    · cases body
  · next inner body =>
    have reached : inner.rest <:+ c.advance.rest := by
      split at body
      · cases body
      · cases body
      · cases body
      · split at body
        · next read =>
          cases body
          rwa [read] at escaped
        · cases body
      · cases body
        exact second
    split
    · exact (advance_suffix inner).trans reached
    · exact reached

theorem number_suffix {c : Cursor} {ch : Char} (h : c.peek = some ch)
    (digit : ch.isDigit = true) : c.number.2.rest <:+ c.advance.rest := by
  have first : isNumberChar ch = true := by
    have low : ch.toNat < 0x80 := by
      simp only [Char.isDigit, Bool.and_eq_true, decide_eq_true_eq] at digit
      have := digit.2
      simp only [UInt32.le_iff_toNat_le] at this
      exact Nat.lt_of_le_of_lt this (by decide)
    simp [isNumberChar, Text.isAlphanumeric, Text.isNumeric, digit, low]
  have plain := skip_suffix_advance (p := isNumberChar) h first
  have marked := (skip_suffix isNumberChar c.advance.advance).trans (advance_suffix c.advance)
  unfold number
  cases c.radix? <;> dsimp only <;> repeat' split
  all_goals first | exact plain | exact marked

theorem isNameChar_of_start {ch : Char} (h : (Text.isAlphabetic ch || ch == '_') = true) :
    isNameChar ch = true := by
  simp only [Bool.or_eq_true, beq_iff_eq] at h
  rcases h with h | h <;> simp [isNameChar, Text.isAlphanumeric, h]

/-- A lexeme takes at least the character that it starts with. -/
theorem lexemeHere_suffix {c : Cursor} {x : Lexeme} {ch : Char} (h : c.peek = some ch)
    (ok : c.lexemeHere.1 = .ok x) : c.lexemeHere.2.rest <:+ c.advance.rest := by
  simp only [lexemeHere, h] at ok ⊢
  split
  · exact indentation_suffix _
  split
  · exact stringFrom_suffix ..
  split
  · exact charLiteral_suffix c
  split
  · exact number_suffix h ‹_›
  split
  · exact List.suffix_rfl
  split
  · next named => exact skip_suffix_advance h (isNameChar_of_start named)
  split
  · exact List.suffix_rfl
  split
  · exact skip_suffix_advance h ‹_›
  split
  · exact List.suffix_rfl
  · simp_all

theorem peek_of_lexemeHere {c : Cursor} {x : Lexeme} (ok : c.lexemeHere.1 = .ok x)
    (more : x.token ≠ .eof) : ∃ ch, c.peek = some ch := by
  cases h : c.peek with
  | none =>
    simp only [lexemeHere, h, lexeme, Except.ok.injEq] at ok
    subst ok
    exact absurd rfl more
  | some ch => exact ⟨ch, rfl⟩

theorem skipBlanks_suffix (c : Cursor) : c.skipBlanks.rest <:+ c.rest := by
  unfold skipBlanks
  dsimp only
  split
  · exact (skip_suffix _ _).trans (skip_suffix _ _)
  · exact skip_suffix _ _

end Cursor

namespace Lexer

/-- What bounds the number of lexemes that are left, the last one not counted. -/
def remaining (l : Lexer) : Nat :=
  l.cursor.rest.length + if l.fresh then 1 else 0

/-- Only the first call may return a token and take nothing. -/
theorem next_takes {l : Lexer} {x : Lexeme} (ok : l.next.1 = .ok x) (more : x.token ≠ .eof)
    (later : l.fresh = false) : ∃ taken, taken ≠ [] ∧ l.cursor.rest = taken ++ l.next.2.cursor.rest := by
  simp only [next, later, Bool.false_eq_true, if_false] at ok ⊢
  obtain ⟨ch, h⟩ := Cursor.peek_of_lexemeHere ok more
  obtain ⟨taken, behind⟩ := Cursor.lexemeHere_suffix h ok
  obtain ⟨blanks, front⟩ := l.cursor.skipBlanks_suffix
  refine ⟨blanks ++ ch :: taken, by simp, ?_⟩
  rw [← front, Cursor.rest_of_peek h, ← Cursor.advance_rest, ← behind]
  simp

theorem remaining_next_lt {l : Lexer} {x : Lexeme} (ok : l.next.1 = .ok x)
    (more : x.token ≠ .eof) : l.next.2.remaining < l.remaining := by
  have read : l.next.2.remaining = l.next.2.cursor.rest.length := rfl
  by_cases later : l.fresh = false
  · obtain ⟨taken, filled, whole⟩ := next_takes ok more later
    have := List.length_pos_iff.2 filled
    simp only [remaining, whole, later, List.length_append, Bool.false_eq_true, if_false] at read ⊢
    omega
  · have := l.cursor.indentation_suffix.length_le
    simp only [Bool.not_eq_false] at later
    simp only [remaining, next, later, if_true, Bool.false_eq_true, if_false]
    omega

/-- The lexemes up to the end of the text or to the first that is refused. -/
def lexemes (l : Lexer) : List (Except LexicalError Lexeme) :=
  match _ : l.next.1 with
  | .error e => [.error e]
  | .ok x => .ok x :: if _ : x.token = .eof then [] else l.next.2.lexemes
termination_by l.remaining
decreasing_by exact remaining_next_lt ‹_› ‹_›

end Lexer

/-- The tokens of a text. -/
def lexemes (text : String) : List (Except LexicalError Lexeme) :=
  (Lexer.ofString text).lexemes

end MixfixLambda
