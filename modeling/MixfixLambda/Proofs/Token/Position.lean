import MixfixLambda.Proofs.Token.Cover

/-!
# Where the reading of a text ends

The last thing that is read of a text is its end or a lexeme that is refused. The end is reported behind the
last byte, and a refusal inside the text. Both rules have an exception, where the reader goes on past the last
character and counts a byte for each step: at the end of an empty text, and at an escape that the end of the
text cuts off.
-/
namespace MixfixLambda

namespace Cursor

variable {c c' d : Cursor} {e : LexicalError} {ch : Char}

/-- Number of characters that are missing from an escape, if the text ends in one. -/
def missing : List Char → Nat
  | ['\\'] => 1
  | ['\\', 'x'] => 2
  | ['\\', 'x', _] => 1
  | _ => 0

theorem missing_hex (digits : List Char) : missing ('\\' :: 'x' :: digits) = 2 - digits.length := by
  match digits with
  | [] => rfl
  | [_] => rfl
  | _ :: _ :: rest => simp [missing]

theorem missing_letter (rest : List Char) (letter : ch ≠ 'x') : missing ('\\' :: ch :: rest) = 0 := by
  unfold missing
  split <;> simp_all

theorem missing_plain (next : c.peek = some ch) (plain : ch ≠ '\\') : missing c.rest = 0 := by
  rw [rest_of_peek next]
  unfold missing
  split <;> simp_all

/-- Reading on past the end counts a byte for every character that is not there. -/
theorem advance_total (c : Cursor) :
    c.advance.position + byteLength c.advance.rest = c.position + byteLength c.rest + (1 - c.rest.length) := by
  obtain ⟨position, _ | ⟨ch, rest⟩⟩ := c
  · rfl
  · simp [advance, nextPosition, peek, Nat.add_assoc]

theorem advance_twice_total (c : Cursor) : c.advance.advance.position + byteLength c.advance.advance.rest =
    c.position + byteLength c.rest + (2 - c.rest.length) := by
  have first := advance_total c
  have second := advance_total c.advance
  have shorter : c.advance.rest.length = c.rest.length - 1 := by simp
  omega

theorem forward_advance_twice (c : Cursor) : c.position ≤ c.advance.advance.position :=
  Nat.le_trans (Nat.le_add_right _ _) (Nat.le_add_right _ _)

/-- A refusal of what stands at the cursor, which is inside the text unless it is an escape that is cut off. -/
structure Refuses (c : Cursor) (e : LexicalError) : Prop where
  start : e.span.start = c.position
  forward : e.span.start ≤ e.span.stop
  inside : missing c.rest = 0 → e.span.stop ≤ c.position + byteLength c.rest
  past : missing c.rest ≠ 0 → e.span.stop = c.position + byteLength c.rest + missing c.rest

/-- A refusal of what stands at the cursor or further on. -/
def Meets (c : Cursor) (e : LexicalError) : Prop :=
  ∃ d, c.Precedes d ∧ d.rest <:+ c.rest ∧ d.Refuses e

theorem Refuses.meets (refuses : c.Refuses e) : c.Meets e :=
  ⟨c, .refl c, List.suffix_rfl, refuses⟩

theorem Meets.behind (meets : d.Meets e) (moves : c.Precedes d) (suffix : d.rest <:+ c.rest) : c.Meets e := by
  obtain ⟨place, further, within, refuses⟩ := meets
  exact ⟨place, moves.trans further, within.trans suffix, refuses⟩

theorem refuses_of_precedes (span : e.span = ⟨c.position, d.position⟩) (plain : missing c.rest = 0)
    (moves : c.Precedes d) : c.Refuses e := by
  have total := moves.total
  have forward := moves.forward
  refine ⟨by rw [span], by rw [span]; exact forward, fun _ => ?_, fun cut => absurd plain cut⟩
  rw [span]
  dsimp only
  omega

theorem refuses_of_missing (span : e.span = ⟨c.position, d.position⟩) (forward : c.position ≤ d.position)
    (total : d.position + byteLength d.rest = c.position + byteLength c.rest + missing c.rest)
    (ended : missing c.rest ≠ 0 → d.rest = []) : c.Refuses e := by
  refine ⟨by rw [span], by rw [span]; exact forward, fun plain => ?_, fun cut => ?_⟩ <;> rw [span] <;> dsimp only
  · omega
  · rw [ended cut, byteLength_nil] at total
    exact total

/-- An escape is refused at its end, whether the text has it or not. -/
theorem escape_refuses (found : c.escape = (.error e, c')) (next : c.peek = some '\\') : c.Refuses e := by
  have whole : c.rest = '\\' :: c.advance.rest := rest_of_peek next
  have forward := forward_advance_twice c
  have total := advance_twice_total c
  unfold escape at found
  simp only [pop] at found
  split at found
  · next ended =>
    have cut : c.rest = ['\\'] := by
      rw [whole, List.head?_eq_none_iff.1 ended]
    have one : missing c.rest = 2 - c.rest.length := by
      rw [cut]
      rfl
    cases found
    exact refuses_of_missing rfl forward (one ▸ total) fun _ => by simp [cut]
  · next hex =>
    have marked : c.rest = '\\' :: 'x' :: c.advance.advance.rest :=
      whole.trans (congrArg _ (rest_of_peek hex))
    have few : missing c.rest = 2 - c.advance.advance.rest.length := by
      rw [marked, missing_hex]
    have length := congrArg List.length marked
    simp only [List.length_cons] at length
    have digits := advance_twice_total c.advance.advance
    have further := forward_advance_twice c.advance.advance
    split at found
    · cases found
    · cases found
      refine refuses_of_missing rfl (Nat.le_trans forward further) (by omega) fun cut => ?_
      apply List.eq_nil_of_length_eq_zero
      simp only [advance_rest, List.length_tail] at few ⊢
      omega
  · next letter second =>
    have named : missing c.rest = 0 := by
      rw [whole, rest_of_peek second]
      exact missing_letter _ letter
    split at found
    · cases found
    · cases found
      exact refuses_of_precedes rfl named ((precedes_advance next).trans (precedes_advance second))

/-- The text of a string literal is refused from its quote on, and an escape in it from its backslash on. -/
theorem stringFrom_meets {o : Cursor} {bytes : List UInt8}
    (found : stringFrom o.position bytes c = (.error e, c')) (quote : missing o.rest = 0) (moves : o.Precedes c)
    (suffix : c.rest <:+ o.rest) : o.Meets e := by
  fun_induction stringFrom o.position bytes c with
  | case1 | case2 =>
    cases found
    exact (refuses_of_precedes rfl quote moves).meets
  | case3 => cases found
  | case4 _ c rest _ inner escaped here _ _ ih =>
    have next : c.peek = some '\\' := by rw [peek, here]; rfl
    have within : inner.rest <:+ c.rest := by
      have := escape_suffix c
      rwa [escaped] at this
    exact ih found (moves.trans (escape_precedes escaped next)) (within.trans suffix)
  | case5 _ c rest _ _ escaped here =>
    cases found
    have next : c.peek = some '\\' := by rw [peek, here]; rfl
    exact (escape_refuses escaped next).meets.behind moves suffix
  | case6 _ c ch rest here _ _ _ ih =>
    have next : c.peek = some ch := by rw [peek, here]; rfl
    exact ih found (moves.trans (precedes_advance next)) ((advance_suffix c).trans suffix)

theorem charLiteral_meets (found : c.charLiteral = (.error e, c')) (next : c.peek = some '\x27') : c.Meets e := by
  have quote : missing c.rest = 0 := missing_plain next (by decide)
  have first := precedes_advance next
  have refused {d : Cursor} (span : e.span = ⟨c.position, d.position⟩) (moves : c.Precedes d) : c.Meets e :=
    (refuses_of_precedes span quote moves).meets
  unfold charLiteral at found
  dsimp only at found
  split at found
  · next body =>
    cases found
    split at body
    · cases body
      exact refused rfl first
    · next second =>
      cases body
      exact refused rfl (first.trans (precedes_advance second))
    · cases body
      exact refused rfl first
    · next second =>
      split at body
      · cases body
      · next escaped =>
        cases body
        exact (escape_refuses escaped second).meets.behind first (advance_suffix c)
    · cases body
  · next body =>
    split at found
    · cases found
    · cases found
      split at body
      · cases body
      · cases body
      · cases body
      · next second =>
        split at body
        · next escaped =>
          cases body
          exact refused rfl (first.trans (escape_precedes escaped second))
        · cases body
      · next second =>
        cases body
        exact refused rfl (first.trans (precedes_advance second))

theorem number_refuses (found : c.number = (.error e, c')) (digit : missing c.rest = 0) : c.Refuses e := by
  have refused {d : Cursor} {cause : LexicalCause} (moves : c.Precedes d)
      (same : (d.skip isNumberChar).refuse c.position cause = ((.error e, c') : Scan Lexeme)) : c.Refuses e := by
    cases same
    exact refuses_of_precedes rfl digit (moves.trans (precedes_skip isNumberChar d))
  unfold number at found
  cases radix : c.radix? with
  | none =>
    simp only [radix] at found
    split at found
    · exact refused (.refl c) found
    · split at found
      · cases found
      · exact refused (.refl c) found
  | some n =>
    simp only [radix] at found
    split at found
    · exact refused (precedes_mark radix) found
    · split at found
      · cases found
      · exact refused (precedes_mark radix) found

theorem indentation_meets (found : c.indentation = (.error e, c')) : c.Meets e := by
  obtain ⟨d, moves, suffix, stops⟩ := indentation_stops c
  rw [found] at stops
  cases stops with
  | tab next =>
    have span : c'.advance.position = c'.position + 1 := advance_position next
    have refuses : c'.Refuses ⟨.tabIndentation, ⟨c'.position, c'.position + 1⟩⟩ :=
      refuses_of_precedes (by rw [span]) (missing_plain next (by decide)) (precedes_advance next)
    exact refuses.meets.behind moves suffix

theorem lexemeHere_meets (found : c.lexemeHere = (.error e, c')) : c.Meets e := by
  cases next : c.peek with
  | none =>
    simp only [lexemeHere, next] at found
    cases found
  | some ch =>
    have first := precedes_advance next
    simp only [lexemeHere, next] at found
    split at found
    · exact (indentation_meets found).behind first (advance_suffix c)
    split at found
    · next quote =>
      exact stringFrom_meets found (missing_plain next (quote ▸ by decide)) first (advance_suffix c)
    split at found
    · next quote => exact charLiteral_meets found (quote ▸ next)
    split at found
    · next digit =>
      have plain : ch ≠ '\\' := by
        rintro rfl
        exact absurd digit (by decide)
      exact (number_refuses found (missing_plain next plain)).meets
    split at found
    · cases found
    split at found
    · cases found
    split at found
    · cases found
    · next punctuation =>
      have plain : ch ≠ '\\' := by
        rintro rfl
        exact punctuation (by decide)
      split at found
      · cases found
      split at found
      · cases found
      · cases found
        exact (refuses_of_precedes rfl (missing_plain next plain) first).meets

end Cursor

namespace Lexer

open Cursor

variable {l : Lexer} {e : LexicalError} {before text : List Char}

theorem next_meets (found : l.next.1 = .error e) : l.cursor.Meets e := by
  obtain ⟨c, fresh⟩ := l
  cases fresh with
  | true => exact indentation_meets (Prod.ext found rfl)
  | false => exact (lexemeHere_meets (Prod.ext found rfl)).behind (precedes_skipBlanks c) (skipBlanks_suffix c)

end Lexer

/-- What the reading of a text ends with. The end of the text is a span that takes nothing, and a refusal starts
at a character of the text. -/
inductive EndsAt (text : List Char) : Except LexicalError Lexeme → Prop
  | empty (nothing : text = []) : EndsAt text (.ok ⟨.eof, .point 1⟩)
  | eof (filled : text ≠ []) : EndsAt text (.ok ⟨.eof, .point (Cursor.byteLength text)⟩)
  | refused {before rest : List Char} {e : LexicalError} (whole : text = before ++ rest)
      (start : e.span.start = Cursor.byteLength before) (forward : e.span.start ≤ e.span.stop)
      (inside : Cursor.missing rest = 0 → e.span.stop ≤ Cursor.byteLength text)
      (past : Cursor.missing rest ≠ 0 → e.span.stop = Cursor.byteLength text + Cursor.missing rest) :
      EndsAt text (.error e)

namespace Lexer

open Cursor

variable {l : Lexer} {e : LexicalError} {x : Lexeme} {before text : List Char}

theorem Behind.refused (behind : l.Behind text before) (found : l.next.1 = .error e) : EndsAt text (.error e) := by
  obtain ⟨d, moves, ⟨taken, whole⟩, refuses⟩ := next_meets found
  have position := moves.position_eq whole.symm
  have split : text = before ++ taken ++ d.rest := by
    rw [behind.whole, ← whole, List.append_assoc]
  have front : d.position = Cursor.byteLength (before ++ taken) := by
    rw [position, behind.position, Cursor.byteLength_append]
  have size : Cursor.byteLength text = d.position + Cursor.byteLength d.rest := by
    rw [split, Cursor.byteLength_append, front]
  refine .refused split (refuses.start.trans front) refuses.forward ?_ ?_ <;> rw [size]
  · exact refuses.inside
  · exact refuses.past

theorem Behind.finished (behind : l.Behind text before) (filled : text ≠ []) (found : l.next.1 = .ok x)
    (last : x.token = .eof) : EndsAt text (.ok x) := by
  obtain ⟨filler, slice, reads, -⟩ := behind.next_reads found
  have covers := next_covers found
  have ended : l.next.2.cursor.rest = [] := (List.append_eq_nil_iff.1 (reads.ends last)).2
  have total := covers.moves.total
  rw [ended, Cursor.byteLength_nil, Nat.add_zero, behind.position, ← Cursor.byteLength_append, ← behind.whole,
    ← covers.stop] at total
  have same : x.span.start = x.span.stop := (next_behind found).2.resolve_left fun inline => inline.1 last
  have point : x = ⟨.eof, .point (Cursor.byteLength text)⟩ := by
    obtain ⟨token, start, stop⟩ := x
    cases last
    dsimp only at same total
    rw [same, total]
    rfl
  rw [point]
  exact .eof filled

theorem Behind.endsAt {last : Except LexicalError Lexeme} (behind : l.Behind text before) (filled : text ≠ [])
    (inside : last ∈ l.lexemes) (ends : ∀ x, last = .ok x → x.token = .eof) : EndsAt text last := by
  induction l using lexemes.induct generalizing before with
  | case1 l e found =>
    have next : l.next = (.error e, l.next.2) := by rw [← found]
    rw [lexemes_of_error next, List.mem_singleton] at inside
    rw [inside]
    exact behind.refused found
  | case2 l x found ih =>
    have next : l.next = (.ok x, l.next.2) := by rw [← found]
    by_cases eof : x.token = .eof
    · rw [lexemes_of_eof next eof, List.mem_singleton] at inside
      rw [inside]
      exact behind.finished filled found eof
    · obtain ⟨_, _, -, further⟩ := behind.next_reads found
      rw [lexemes_of_next next eof] at inside
      rcases List.mem_cons.1 inside with same | later
      · exact absurd (ends x same) eof
      · exact ih eof (further eof) later

end Lexer

/-- The reading of a text comes to its end or to a refusal. The end is the place behind the last byte, but for the
end of an empty text, and a refusal is inside the text, but for that of an escape that the end of the text cuts
off, which is longer than the text by what is missing. -/
theorem lexemes_endsAt (text : String) : ∃ (front : List Lexeme) (last : Except LexicalError Lexeme),
    lexemes text = front.map .ok ++ [last] ∧ (∀ x ∈ front, x.token ≠ .eof) ∧ EndsAt text.toList last := by
  cases chars : text.toList with
  | nil =>
    refine ⟨[], .ok ⟨.eof, .point 1⟩, ?_, by simp, .empty rfl⟩
    rw [lexemes, Lexer.ofString, chars]
    exact Lexer.lexemes_of_eof rfl rfl
  | cons ch rest =>
    obtain ⟨front, last, whole, running, finish, -⟩ := lexemes_divide text
    refine ⟨front, last, whole, running, ?_⟩
    have behind : (Lexer.ofString text).Behind (ch :: rest) [] := by
      refine ⟨?_, ?_, fun _ => rfl⟩ <;> simp [Lexer.ofString, Lexer.ofChars, Cursor.start, chars]
    have inside : last ∈ (Lexer.ofString text).lexemes := by
      rw [← lexemes, whole]
      simp
    exact behind.endsAt (by simp) inside finish

/-- The end of an empty text, and an escape of which only the backslash is there. -/
theorem lexemes_pass_end :
    lexemes "" = [.ok ⟨.eof, .point 1⟩] ∧ "".utf8ByteSize = 0 ∧
      lexemes "\"\\" = [.ok ⟨.newline 0, .origin⟩, .error ⟨.unterminatedString, ⟨1, 3⟩⟩] ∧
      "\"\\".utf8ByteSize = 2 := by
  refine ⟨?_, rfl, ?_, rfl⟩ <;> decide +kernel

end MixfixLambda
