import Mathlib.Data.List.Chain
import Mathlib.Data.List.DropRight
import MixfixLambda.Proofs.Token.Extent

/-!
# The lexemes cover the text

What stands in front of the first lexeme, between two that follow each other, and behind the last one is
blanks, line breaks and comments. Every lexeme stands where its span says, at characters as wholes: a word
with the text of its slice, and a line break at the first character of its line that indents nothing.
-/
namespace MixfixLambda

/-- A text that belongs to no lexeme, in front of `rest`: blanks, line breaks, and comments, each of which
takes the rest of its line. -/
inductive Filler (rest : List Char) : List Char → Prop
  | nil : Filler rest []
  | blank {ch : Char} {text : List Char} (blank : Cursor.isLineBlank ch = true) (behind : Filler rest text) :
      Filler rest (ch :: text)
  | line {text : List Char} (behind : Filler rest text) : Filler rest ('\n' :: text)
  | comment {inside text : List Char} (within : ∀ ch ∈ inside, ch ≠ '\n')
      (ends : Cursor.Ends (· != '\n') (text ++ rest)) (behind : Filler rest text) :
      Filler rest ('-' :: '-' :: inside ++ text)

/-- What stands in front of a place on its own line. -/
def lineBefore (before : List Char) : List Char :=
  before.rtakeWhile (· != '\n')

/-- A place that is indented by so many spaces: nothing else stands in front of it on its line, but for
carriage returns. -/
structure Indented (before : List Char) (width : Nat) : Prop where
  blank : ∀ ch ∈ lineBefore before, ch = ' ' ∨ ch = '\r'
  spaces : (lineBefore before).count ' ' = width

/-- The next character does not belong to the indentation of its line. -/
def EndsIndentation (rest : List Char) : Prop :=
  ∃ ch ∈ rest.head?, ch ≠ ' ' ∧ ch ≠ '\r' ∧ ch ≠ '\n'

/-- A lexeme whose span is a slice of a text, with what the slice tells of its token. -/
structure Lexeme.Stands (x : Lexeme) (before slice after : List Char) : Prop where
  start : x.span.start = Cursor.byteLength before
  stop : x.span.stop = Cursor.byteLength (before ++ slice)
  word : ∀ text, x.token.symbol = some text →
    text = String.ofList slice ∨ ∃ ch, slice = [ch] ∧ unicodeAlias ch = some text
  newline : ∀ width, x.token = .newline width →
    slice = [] ∧ Indented before width ∧ EndsIndentation after
  taking : (∀ width, x.token ≠ .newline width) → slice ≠ []

/-- Between two spans of a text there is nothing but filler. -/
def Apart (text : List Char) (s s' : Span) : Prop :=
  ∃ before filler rest, text = before ++ filler ++ rest ∧ Cursor.byteLength before = s.stop ∧
    Cursor.byteLength (before ++ filler) = s'.start ∧ Filler rest filler

variable {rest : List Char}

theorem Filler.append {first second : List Char} (front : Filler (second ++ rest) first)
    (back : Filler rest second) : Filler rest (first ++ second) := by
  induction front with
  | nil => exact back
  | blank blank _ ih => exact .blank blank ih
  | line _ ih => exact .line ih
  | comment within ends _ ih =>
    rw [List.append_assoc]
    exact .comment within (by simpa using ends) ih

theorem filler_blanks {text : List Char} (blank : ∀ ch ∈ text, Cursor.isLineBlank ch = true) :
    Filler rest text := by
  induction text with
  | nil => exact .nil
  | cons ch text ih =>
    simp only [List.forall_mem_cons] at blank
    exact .blank blank.1 (ih blank.2)

/-- A comment takes the rest of its line. -/
theorem filler_comment (text : List Char) :
    Filler (text.dropWhile (· != '\n')) ('-' :: '-' :: text.takeWhile (· != '\n')) := by
  have within : ∀ ch ∈ text.takeWhile (· != '\n'), ch ≠ '\n' := by
    intro ch inside
    simpa using List.mem_takeWhile_imp inside
  have ends : Cursor.Ends (· != '\n') (text.dropWhile (· != '\n')) := by
    intro ch next
    have first := List.head?_dropWhile_not (· != '\n') text
    rw [Option.mem_def] at next
    rwa [next] at first
  simpa using Filler.comment within ends .nil

namespace Indented

variable {before : List Char} {width : Nat}

theorem start : Indented [] 0 :=
  ⟨by simp [lineBefore], by simp [lineBefore]⟩

theorem line (before : List Char) : Indented (before ++ ['\n']) 0 := by
  have empty : lineBefore (before ++ ['\n']) = [] := by
    simp [lineBefore]
  exact ⟨by simp [empty], by simp [empty]⟩

theorem space (indented : Indented before width) : Indented (before ++ [' ']) (width + 1) := by
  have more : lineBefore (before ++ [' ']) = lineBefore before ++ [' '] := by
    simp [lineBefore]
  refine ⟨?_, by simp [more, indented.spaces]⟩
  intro ch inside
  rw [more, List.mem_append, List.mem_singleton] at inside
  exact inside.elim (indented.blank ch) .inl

theorem ret (indented : Indented before width) : Indented (before ++ ['\r']) width := by
  have more : lineBefore (before ++ ['\r']) = lineBefore before ++ ['\r'] := by
    simp [lineBefore]
  refine ⟨?_, by simp [more, indented.spaces]⟩
  intro ch inside
  rw [more, List.mem_append, List.mem_singleton] at inside
  exact inside.elim (indented.blank ch) .inr

end Indented

namespace Cursor

variable {c c' : Cursor} {x : Lexeme} {before : List Char}

/-- The comment at the cursor, if there is one, is skipped with the blanks in front of it. -/
theorem skipBlanks_filler (c : Cursor) :
    ∃ filler, c.rest = filler ++ c.skipBlanks.rest ∧ Filler c.skipBlanks.rest filler := by
  have blanks : ∀ rest, Filler rest (c.run isLineBlank) := by
    intro rest
    exact filler_blanks fun ch inside => List.mem_takeWhile_imp inside
  have whole : c.rest = c.run isLineBlank ++ (c.skip isLineBlank).rest :=
    (List.takeWhile_append_dropWhile).symm
  unfold skipBlanks
  dsimp only
  split
  · next dashes =>
    obtain ⟨first, second⟩ := dashes
    generalize c.skip isLineBlank = d at whole first second ⊢
    obtain ⟨position, text⟩ := d
    obtain ⟨more, rfl⟩ : ∃ more, text = '-' :: '-' :: more := by
      match text with
      | [] => simp [peek] at first
      | [_] => simp [peekSecond] at second
      | _ :: _ :: more =>
        simp only [peek, peekSecond, List.head?_cons, List.tail_cons, Option.some.injEq] at first second
        exact ⟨more, by rw [first, second]⟩
    have skipped : (skip (· != '\n') ⟨position, '-' :: '-' :: more⟩).rest = more.dropWhile (· != '\n') := by
      simp [skip]
    rw [skipped]
    refine ⟨c.run isLineBlank ++ '-' :: '-' :: more.takeWhile (· != '\n'), ?_, (blanks _).append (filler_comment more)⟩
    simp [whole]
  · exact ⟨c.run isLineBlank, whole, blanks _⟩

/-- Filler, or in a comment what is left of the comment and then filler. -/
def FillerFrom (rest : List Char) : Bool → List Char → Prop
  | false, text => Filler rest text
  | true, text => ∃ inside more, text = inside ++ more ∧ (∀ ch ∈ inside, ch ≠ '\n') ∧
      Ends (· != '\n') (more ++ rest) ∧ Filler rest more

/-- How the reading of an indentation ends: at the end of the text, or at a place that is indented. -/
def Indents (before : List Char) (x : Lexeme) (c : Cursor) : Prop :=
  x.span = .point c.position ∧
    (x.token = .eof ∧ c.rest = [] ∨
      ∃ width, x.token = .newline width ∧ Indented before width ∧ EndsIndentation c.rest)

theorem indentationFrom_reads {text : List Char} {position width : Nat} {comment : Bool}
    (found : indentationFrom position width comment text = (.ok x, c'))
    (indented : comment = false → Indented before width) :
    ∃ taken, text = taken ++ c'.rest ∧ FillerFrom c'.rest comment taken ∧ Indents (before ++ taken) x c' := by
  induction text generalizing position width comment before with
  | nil =>
    cases found
    refine ⟨[], rfl, ?_, rfl, .inl ⟨rfl, rfl⟩⟩
    cases comment with
    | false => exact .nil
    | true => exact ⟨[], [], rfl, by simp, by simp, .nil⟩
  | cons ch rest ih =>
    -- what is read behind this character, in a comment or not
    have behind {position width : Nat} {comment : Bool}
        (found : indentationFrom position width comment rest = (.ok x, c'))
        (indented : comment = false → Indented (before ++ [ch]) width) :
        ∃ taken, rest = taken ++ c'.rest ∧ FillerFrom c'.rest comment taken ∧
          Indents (before ++ ch :: taken) x c' := by
      obtain ⟨taken, whole, filler, indents⟩ := ih found indented
      exact ⟨taken, whole, filler, by simpa using indents⟩
    rw [indentationFrom] at found
    split at found
    · next line =>
      subst line
      obtain ⟨taken, rfl, filler, indents⟩ := behind found fun _ => Indented.line before
      refine ⟨'\n' :: taken, rfl, ?_, indents⟩
      cases comment with
      | false => exact .line filler
      | true => exact ⟨[], '\n' :: taken, rfl, by simp, by simp, .line filler⟩
    split at found
    · next line inside =>
      subst inside
      obtain ⟨taken, rfl, filler, indents⟩ := behind found (by simp)
      obtain ⟨inside, more, rfl, within, ends, filler⟩ := filler
      refine ⟨ch :: (inside ++ more), rfl, ⟨ch :: inside, more, rfl, ?_, ends, filler⟩, indents⟩
      simpa using ⟨line, within⟩
    next line outside =>
    simp only [Bool.not_eq_true] at outside
    subst outside
    have indented := indented rfl
    split at found
    · next space =>
      subst space
      obtain ⟨taken, rfl, filler, indents⟩ := behind found fun _ => indented.space
      exact ⟨' ' :: taken, rfl, .blank (by decide) filler, indents⟩
    split at found
    · next ret =>
      subst ret
      obtain ⟨taken, rfl, filler, indents⟩ := behind found fun _ => indented.ret
      exact ⟨'\r' :: taken, rfl, .blank (by decide) filler, indents⟩
    split at found
    · cases found
    split at found
    · next dashes =>
      obtain ⟨rfl, second⟩ := dashes
      obtain ⟨taken, rfl, filler, indents⟩ := behind found (by simp)
      obtain ⟨inside, more, rfl, within, ends, filler⟩ := filler
      -- the second dash is read as a character of the comment
      cases inside with
      | nil =>
        have := ends '-' (by simpa using second)
        simp at this
      | cons ch inside =>
        simp only [List.cons_append, List.head?_cons, Option.some.injEq] at second
        subst second
        refine ⟨'-' :: '-' :: inside ++ more, rfl, .comment ?_ ends filler, indents⟩
        intro ch member
        exact within ch (List.mem_cons_of_mem _ member)
    · next space ret _ _ =>
      cases found
      refine ⟨[], rfl, .nil, rfl, .inr ⟨width, rfl, ?_, ch, rfl, space, ret, line⟩⟩
      simpa using indented

theorem indentation_reads (found : c.indentation = (.ok x, c')) (indented : Indented before 0) :
    ∃ filler, c.rest = filler ++ c'.rest ∧ Filler c'.rest filler ∧ Indents (before ++ filler) x c' :=
  indentationFrom_reads found fun _ => indented

/-- What is read from a cursor behind `before`: filler, and then the slice of a lexeme or the end of the text. -/
structure Reads (c : Cursor) (before filler slice : List Char) (x : Lexeme) (c' : Cursor) : Prop where
  whole : c.rest = filler ++ (slice ++ c'.rest)
  fills : Filler (slice ++ c'.rest) filler
  stands : x.token ≠ .eof → x.Stands (before ++ filler) slice c'.rest
  ends : x.token = .eof → slice ++ c'.rest = []

variable {before filler slice : List Char}

theorem Indents.reads (indents : Indents (before ++ filler) x c') (moves : c.Precedes c')
    (whole : c.rest = filler ++ c'.rest) (fills : Filler c'.rest filler) (here : c.position = byteLength before) :
    c.Reads before filler [] x c' := by
  obtain ⟨point, last | ⟨width, newline, indented, ends⟩⟩ := indents
  · refine ⟨whole, fills, fun more => absurd last.1 more, fun _ => last.2⟩
  · have position : c'.position = byteLength (before ++ filler) := by
      rw [moves.position_eq whole, here, byteLength_append]
    have start : x.span.start = byteLength (before ++ filler) := by
      rw [point]
      exact position
    have stop : x.span.stop = byteLength (before ++ filler ++ []) := by
      rw [point, List.append_nil]
      exact position
    refine ⟨whole, fills, fun _ => ⟨start, stop, ?_, ?_, ?_⟩, by simp [newline]⟩
    · simp [newline, Token.symbol]
    · intro width' same
      rw [newline, Token.newline.injEq] at same
      exact ⟨rfl, same ▸ indented, ends⟩
    · intro inline
      exact absurd newline (inline width)

/-- A text that nothing has been read of: its first line is indented by what it starts with. -/
theorem indentation_reads_first (found : c.indentation = (.ok x, c')) (here : c.position = 0) :
    ∃ filler, c.Reads [] filler [] x c' := by
  obtain ⟨filler, whole, fills, indents⟩ := indentation_reads found Indented.start
  exact ⟨filler, indents.reads (indentation_covers found).moves whole fills here⟩

theorem Takes.reads {d : Cursor} (takes : d.Takes x slice c') (blanks : c.Precedes d)
    (whole : c.rest = filler ++ d.rest) (fills : Filler d.rest filler) (here : c.position = byteLength before) :
    c.Reads before filler slice x c' := by
  have front : d.position = byteLength (before ++ filler) := by
    rw [blanks.position_eq whole, here, byteLength_append]
  have start : x.span.start = byteLength (before ++ filler) := by
    rw [takes.span]
    exact front
  have stop : x.span.stop = byteLength (before ++ filler ++ slice) := by
    rw [takes.span, byteLength_append, ← front]
    exact takes.moved
  rw [takes.whole] at whole fills
  refine ⟨whole, fills, fun _ => ⟨start, stop, takes.word, ?_, fun _ => takes.filled⟩, ?_⟩
  · intro width newline
    exact absurd newline (takes.inline.2 width)
  · intro last
    exact absurd last takes.inline.1

theorem lexemeHere_reads (found : c.skipBlanks.lexemeHere = (.ok x, c')) (here : c.position = byteLength before) :
    ∃ filler slice, c.Reads before filler slice x c' := by
  obtain ⟨filler, whole, fills⟩ := skipBlanks_filler c
  have blanks := precedes_skipBlanks c
  have moves := blanks.trans (lexemeHere_covers found).moves
  generalize c.skipBlanks = d at found whole fills blanks
  cases next : d.peek with
  | none =>
    have ended : d.rest = [] := by simpa [peek] using next
    simp only [lexemeHere, next] at found
    cases found
    exact ⟨filler, [], whole, fills, fun more => absurd rfl more, fun _ => ended⟩
  | some ch =>
    by_cases line : ch = '\n'
    · subst line
      have broken : d.advance.indentation = (.ok x, c') := by
        simpa [lexemeHere, next] using found
      obtain ⟨more, behind, fills', indents⟩ := indentation_reads broken (Indented.line (before ++ filler))
      have tail : d.rest = '\n' :: more ++ c'.rest := by
        rw [rest_of_peek next, List.cons_append, ← behind, advance_rest]
      rw [tail] at whole fills
      have filled : Filler c'.rest (filler ++ '\n' :: more) := fills.append (.line fills')
      refine ⟨filler ++ '\n' :: more, [], Indents.reads ?_ moves ?_ filled here⟩
      · simpa using indents
      · rw [whole, List.append_assoc]
    · obtain ⟨slice, takes⟩ := lexemeHere_takes found next line
      exact ⟨filler, slice, takes.reads blanks whole fills here⟩

end Cursor

namespace Lexer

open Cursor

variable {l : Lexer} {x : Lexeme} {before : List Char}

/-- The text that is being read, with a lexer behind a part of it. -/
structure Behind (l : Lexer) (text before : List Char) : Prop where
  whole : text = before ++ l.cursor.rest
  position : l.cursor.position = Cursor.byteLength before
  fresh : l.fresh = true → before = []

theorem Behind.next_reads {text : List Char} (behind : l.Behind text before) (found : l.next.1 = .ok x) :
    ∃ filler slice, l.cursor.Reads before filler slice x l.next.2.cursor ∧
      (x.token ≠ .eof → l.next.2.Behind text (before ++ filler ++ slice)) := by
  have covers := next_covers found
  obtain ⟨filler, slice, reads⟩ : ∃ filler slice, l.cursor.Reads before filler slice x l.next.2.cursor := by
    obtain ⟨c, fresh⟩ := l
    cases fresh with
    | true =>
      obtain rfl := behind.fresh rfl
      obtain ⟨filler, reads⟩ := indentation_reads_first (Prod.ext found rfl) behind.position
      exact ⟨filler, [], reads⟩
    | false => exact lexemeHere_reads (Prod.ext found rfl) behind.position
  refine ⟨filler, slice, reads, fun more => ⟨?_, ?_, ?_⟩⟩
  · rw [behind.whole, reads.whole]
    simp
  · rw [← covers.stop, (reads.stands more).stop]
  · intro fresh
    cases fresh

/-- The spans that the end of the text adds to those of its lexemes; where a lexeme is refused nothing is said of
the rest. -/
def ending (text : List Char) : Except LexicalError Lexeme → List Span
  | .ok _ => [.point (Cursor.byteLength text)]
  | .error _ => []

/-- The lexemes of a text from an offset on, up to its end or to the first that is refused. -/
structure Divides (text : List Char) (offset : Nat) (tokens : List Lexeme) (last : Except LexicalError Lexeme) :
    Prop where
  stands : ∀ x ∈ tokens, ∃ before slice after, text = before ++ slice ++ after ∧ x.Stands before slice after
  behind : ∀ x ∈ tokens, offset ≤ x.span.start
  ordered : tokens.Pairwise fun x y => x.span.stop ≤ y.span.start
  apart : List.IsChain (Apart text) (.point offset :: (tokens.map Lexeme.span ++ ending text last))

variable {text : List Char}

theorem Divides.of_eof {z : Lexeme} {filler : List Char} (whole : text = before ++ filler)
    (fills : Filler [] filler) : Divides text (Cursor.byteLength before) [] (.ok z) := by
  refine ⟨by simp, by simp, .nil, ?_⟩
  have apart : Apart text (.point (Cursor.byteLength before)) (.point (Cursor.byteLength text)) :=
    ⟨before, filler, [], by simp [whole], rfl, by rw [whole]; rfl, fills⟩
  simpa [ending] using apart

theorem Divides.of_error {e : LexicalError} (offset : Nat) : Divides text offset [] (.error e) :=
  ⟨by simp, by simp, .nil, by simp [ending]⟩

theorem Divides.cons {filler slice after : List Char} {xs : List Lexeme} {last : Except LexicalError Lexeme}
    (whole : text = before ++ filler ++ slice ++ after) (fills : Filler (slice ++ after) filler)
    (stands : x.Stands (before ++ filler) slice after) (others : Divides text x.span.stop xs last) :
    Divides text (Cursor.byteLength before) (x :: xs) last := by
  have front : Cursor.byteLength before ≤ x.span.start := by
    rw [stands.start, Cursor.byteLength_append]
    omega
  have through : x.span.start ≤ x.span.stop := by
    rw [stands.start, stands.stop, Cursor.byteLength_append (before ++ filler)]
    omega
  refine ⟨?_, ?_, ?_, ?_⟩
  · intro y inside
    rcases List.mem_cons.1 inside with rfl | later
    · exact ⟨_, _, _, whole, stands⟩
    · exact others.stands y later
  · intro y inside
    rcases List.mem_cons.1 inside with rfl | later
    · exact front
    · have := others.behind y later
      omega
  · exact List.pairwise_cons.2 ⟨others.behind, others.ordered⟩
  · have apart : Apart text (.point (Cursor.byteLength before)) x.span :=
      ⟨before, filler, slice ++ after, by simp [whole], rfl, stands.start.symm, fills⟩
    -- only where a span stops matters for what is behind it
    have chain : List.IsChain (Apart text) (x.span :: (xs.map Lexeme.span ++ ending text last)) := by
      obtain ⟨next, rest⟩ := List.isChain_cons.1 others.apart
      exact List.isChain_cons.2 ⟨next, rest⟩
    exact List.isChain_cons_cons.2 ⟨apart, chain⟩

/-- Reading goes on to the end of the text or to a lexeme that is refused, and takes something for every lexeme
but the first. -/
theorem Behind.lexemes_divide (behind : l.Behind text before) :
    ∃ tokens last, l.lexemes = tokens.map .ok ++ [last] ∧ (∀ x ∈ tokens, x.token ≠ .eof) ∧
      (∀ z, last = .ok z → z.token = .eof) ∧ tokens.length ≤ l.remaining ∧
      Divides text (Cursor.byteLength before) tokens last := by
  induction l using lexemes.induct generalizing before with
  | case1 l e found =>
    have next : l.next = (.error e, l.next.2) := by rw [← found]
    exact ⟨[], .error e, lexemes_of_error next, by simp, by simp, Nat.zero_le _, .of_error _⟩
  | case2 l x found ih =>
    have next : l.next = (.ok x, l.next.2) := by rw [← found]
    obtain ⟨filler, slice, reads, after⟩ := behind.next_reads found
    by_cases last : x.token = .eof
    · have ended := reads.ends last
      have filled : Filler [] l.cursor.rest := by
        have := reads.fills
        rwa [ended, ← List.append_nil filler, ← ended, ← reads.whole, ended] at this
      refine ⟨[], .ok x, lexemes_of_eof next last, by simp, ?_, Nat.zero_le _, .of_eof behind.whole filled⟩
      intro z same
      cases same
      exact last
    · obtain ⟨tokens, final, whole, running, finish, length, divides⟩ := ih last (after last)
      have stands := reads.stands last
      have fewer := remaining_next_lt found last
      refine ⟨x :: tokens, final, ?_, ?_, finish, ?_, ?_⟩
      · rw [lexemes_of_next next last, whole, List.map_cons, List.cons_append]
      · exact List.forall_mem_cons.2 ⟨last, running⟩
      · simp only [List.length_cons]
        omega
      · refine .cons (after last).whole reads.fills stands ?_
        rwa [stands.stop]

theorem fresh_newline (fresh : l.fresh = true) (found : l.next.1 = .ok x) (more : x.token ≠ .eof) :
    ∃ width, x.token = .newline width := by
  have reads : l.cursor.indentation = (.ok x, l.cursor.indentation.2) := by
    simp only [next, fresh, if_true] at found
    rw [← found]
  obtain ⟨-, -, token⟩ := indentation_ok reads
  exact token.resolve_left more

end Lexer

/-- The end of an empty text is passed before it is read, so that no lexer is behind any part of it. -/
theorem lexemes_divide (text : String) :
    ∃ tokens last, lexemes text = tokens.map .ok ++ [last] ∧ (∀ x ∈ tokens, x.token ≠ .eof) ∧
      (∀ z, last = .ok z → z.token = .eof) ∧ tokens.length ≤ text.length + 1 ∧
      Lexer.Divides text.toList 0 tokens last := by
  cases chars : text.toList with
  | nil =>
    refine ⟨[], .ok ⟨.eof, ⟨1, 1⟩⟩, ?_, by simp, by simp, Nat.zero_le _, ?_⟩
    · rw [lexemes, Lexer.ofString, chars]
      exact Lexer.lexemes_of_eof rfl rfl
    · have nothing : Lexer.Divides [] (Cursor.byteLength []) [] (.ok ⟨.eof, ⟨1, 1⟩⟩) := .of_eof rfl .nil
      exact nothing
  | cons ch rest =>
    have behind : (Lexer.ofString text).Behind (ch :: rest) [] := by
      refine ⟨?_, ?_, fun _ => rfl⟩ <;> simp [Lexer.ofString, Lexer.ofChars, Cursor.start, chars]
    have bound : (Lexer.ofString text).remaining = text.length + 1 := by
      simp [Lexer.remaining, Lexer.ofString, Lexer.ofChars, Cursor.start, String.length_toList]
    rw [← bound]
    exact behind.lexemes_divide

/-- Lexing ends, by calls that each take something but for the first line break and the end, and the lexemes
that are read before the end or the first fault cover the text: each stands at the slice that its span tells,
in the order of the text, and there is nothing but blanks, line breaks and comments between two of them, in
front of the first and, if nothing is refused, behind the last. -/
theorem lexemes_cover (text : String) :
    (∀ (l : Lexer) (x : Lexeme), l.next.1 = .ok x → x.token ≠ .eof →
      l.next.2.fresh = false ∧ (l.fresh = true → ∃ width, x.token = .newline width) ∧
        (l.fresh = false → ∃ taken, taken ≠ [] ∧ l.cursor.rest = taken ++ l.next.2.cursor.rest)) ∧
    ∃ (tokens : List Lexeme) (last : Except LexicalError Lexeme),
      lexemes text = tokens.map .ok ++ [last] ∧ (∀ x ∈ tokens, x.token ≠ .eof) ∧
      (∀ z, last = .ok z → z.token = .eof) ∧ tokens.length ≤ text.length + 1 ∧
      (∀ x ∈ tokens, x.span.start ≤ x.span.stop ∧ x.span.stop ≤ text.utf8ByteSize ∧
        ∃ before slice after, text.toList = before ++ slice ++ after ∧ x.Stands before slice after) ∧
      tokens.Pairwise (fun x y => x.span.stop ≤ y.span.start) ∧
      List.IsChain (Apart text.toList) (.origin :: (tokens.map Lexeme.span ++ Lexer.ending text.toList last)) := by
  obtain ⟨tokens, last, whole, running, finish, length, divides⟩ := lexemes_divide text
  refine ⟨?_, tokens, last, whole, running, finish, length, ?_, divides.ordered, divides.apart⟩
  · intro l x found more
    exact ⟨rfl, (Lexer.fresh_newline · found more), Lexer.next_takes found more⟩
  · intro x inside
    obtain ⟨before, slice, after, parts, stands⟩ := divides.stands x inside
    have start := stands.start
    have stop := stands.stop
    have size := Cursor.byteLength_toList text
    simp only [parts, Cursor.byteLength_append] at stop size
    exact ⟨by omega, by omega, before, slice, after, parts, stands⟩

end MixfixLambda
