import MixfixLambda.Proofs.Token.Spelling

/-!
# Where lexemes stand

While a text is read, the bytes in front of the cursor and those that are left make up the whole of it. So
every lexeme stands inside the text, and one within a line takes the slice that its span tells, of at least one
byte; a word has the text of this slice, or is the alias of its character. The end of an empty text is the
exception: the reader has passed it before it starts.
-/
namespace MixfixLambda

/-- Whether a token is an operand that says itself what it is. -/
def Token.isLiteral : Token → Bool
  | .int _ | .str _ | .char _ => true
  | .name _ | .operator _ | .newline _ | .eof => false

theorem Token.isLiteral_word {token : Token} {text : String} (word : token.symbol = some text) :
    token.isLiteral = false := by
  cases token <;> cases word <;> rfl

/-- Tokens that the text goes on from: neither a line break nor the end. -/
def Token.Inline (token : Token) : Prop :=
  token ≠ .eof ∧ ∀ width, token ≠ .newline width

theorem Token.inline_of_isLiteral {token : Token} (literal : token.isLiteral = true) : token.Inline := by
  cases token <;> simp_all [isLiteral, Inline]

namespace Cursor

variable {c c' c'' : Cursor} {x : Lexeme} {ch : Char} {p : Char → Bool} {start : Nat}

@[simp]
theorem byteLength_nil : byteLength [] = 0 :=
  rfl

@[simp]
theorem byteLength_cons (ch : Char) (text : List Char) : byteLength (ch :: text) = ch.utf8Size + byteLength text :=
  rfl

theorem byteLength_append (text rest : List Char) : byteLength (text ++ rest) = byteLength text + byteLength rest := by
  induction text with
  | nil => simp
  | cons ch text ih => rw [List.cons_append, byteLength_cons, byteLength_cons, ih, Nat.add_assoc]

theorem byteLength_pos {text : List Char} (filled : text ≠ []) : 0 < byteLength text := by
  cases text with
  | nil => exact absurd rfl filled
  | cons ch text =>
    have := ch.utf8Size_pos
    simp only [byteLength_cons]
    omega

theorem byteLength_toList (text : String) : byteLength text.toList = text.utf8ByteSize := by
  induction text using String.push_induction with
  | empty => rfl
  | push text ch ih => rw [String.toList_push, byteLength_append, ih, String.utf8ByteSize_push, byteLength_cons,
      byteLength_nil, Nat.add_zero]

/-- The second cursor is the first one moved on, by what has been taken from the text. -/
structure Precedes (c c' : Cursor) : Prop where
  forward : c.position ≤ c'.position
  total : c'.position + byteLength c'.rest = c.position + byteLength c.rest

theorem Precedes.refl (c : Cursor) : c.Precedes c :=
  ⟨Nat.le_refl _, rfl⟩

theorem Precedes.trans (first : c.Precedes c') (second : c'.Precedes c'') : c.Precedes c'' :=
  ⟨Nat.le_trans first.forward second.forward, second.total.trans first.total⟩

/-- Positions count the bytes that have been taken. -/
theorem Precedes.position_eq {taken : List Char} (moves : c.Precedes c') (whole : c.rest = taken ++ c'.rest) :
    c'.position = c.position + byteLength taken := by
  have total := moves.total
  rw [whole, byteLength_append] at total
  omega

theorem advance_position (next : c.peek = some ch) : c.advance.position = c.position + ch.utf8Size := by
  rw [advance, nextPosition, next]
  rfl

theorem precedes_advance (next : c.peek = some ch) : c.Precedes c.advance := by
  have position := advance_position next
  refine ⟨by omega, ?_⟩
  rw [position, advance_rest]
  conv_rhs => rw [rest_of_peek next, byteLength_cons]
  omega

theorem precedes_skip (p : Char → Bool) (c : Cursor) : c.Precedes (c.skip p) := by
  refine ⟨Nat.le_add_right _ _, ?_⟩
  have whole := byteLength_append (c.rest.takeWhile p) (c.rest.dropWhile p)
  rw [List.takeWhile_append_dropWhile] at whole
  rw [whole]
  exact Nat.add_assoc ..

theorem precedes_skipBlanks (c : Cursor) : c.Precedes c.skipBlanks := by
  unfold skipBlanks
  dsimp only
  split
  · exact (precedes_skip _ c).trans (precedes_skip _ _)
  · exact precedes_skip _ c

/-- A lexeme that ends where reading stopped, not before it starts; a word takes something. -/
structure Covers (c : Cursor) (x : Lexeme) (c' : Cursor) : Prop where
  moves : c.Precedes c'
  stop : x.span.stop = c'.position
  start : x.span.start ≤ x.span.stop
  word : x.token.symbol.isSome = true → x.span.start < x.span.stop

theorem Covers.behind (covers : c'.Covers x c'') (moves : c.Precedes c') : c.Covers x c'' :=
  ⟨moves.trans covers.moves, covers.stop, covers.start, covers.word⟩

/-- What stops the reading of an indentation: the end of the text, a line that is not blank, or a tab. -/
inductive StopsIndentation (d : Cursor) : Scan Lexeme → Prop
  | eof (ended : d.rest = []) : StopsIndentation d (d.lexeme d.position .eof)
  | newline (width : Nat) : StopsIndentation d (d.lexeme d.position (.newline width))
  | tab (next : d.peek = some '\t') :
      StopsIndentation d (.error ⟨.tabIndentation, ⟨d.position, d.position + 1⟩⟩, d)

theorem indentation_stops (c : Cursor) :
    ∃ d : Cursor, c.Precedes d ∧ d.rest <:+ c.rest ∧ StopsIndentation d c.indentation := by
  have general : ∀ (text : List Char) (position width : Nat) (comment : Bool), ∃ d : Cursor,
      Precedes ⟨position, text⟩ d ∧ d.rest <:+ text ∧
        StopsIndentation d (indentationFrom position width comment text) := by
    intro text
    induction text with
    | nil => exact fun position _ _ => ⟨⟨position, []⟩, .refl _, List.suffix_rfl, .eof rfl⟩
    | cons ch rest ih =>
      intro position width comment
      have behind {size : Nat} (same : ch.utf8Size = size) (width : Nat) (comment : Bool) : ∃ d : Cursor,
          Precedes ⟨position, ch :: rest⟩ d ∧ d.rest <:+ ch :: rest ∧
            StopsIndentation d (indentationFrom (position + size) width comment rest) := by
        obtain ⟨d, moves, suffix, stops⟩ := ih (position + size) width comment
        have first : Precedes ⟨position, ch :: rest⟩ ⟨position + size, rest⟩ := by
          refine ⟨Nat.le_add_right _ _, ?_⟩
          rw [byteLength_cons, same]
          exact Nat.add_assoc ..
        exact ⟨d, first.trans moves, suffix.trans (List.suffix_cons ch rest), stops⟩
      rw [indentationFrom]
      split
      · next line => exact behind (line ▸ rfl) _ _
      split
      · exact behind rfl _ _
      split
      · next blank => exact behind (blank ▸ rfl) _ _
      split
      · next ending => exact behind (ending ▸ rfl) _ _
      split
      · next tab => exact ⟨_, .refl _, List.suffix_rfl, .tab (congrArg some tab)⟩
      split
      · next dash => exact behind (dash.1 ▸ rfl) _ _
      · exact ⟨_, .refl _, List.suffix_rfl, .newline width⟩
  exact general _ _ _ _

theorem indentation_ok (found : c.indentation = (.ok x, c')) :
    c.Precedes c' ∧ x.span = .point c'.position ∧ (x.token = .eof ∨ ∃ width, x.token = .newline width) := by
  obtain ⟨d, moves, -, stops⟩ := indentation_stops c
  rw [found] at stops
  cases stops with
  | eof => exact ⟨moves, rfl, .inl rfl⟩
  | newline width => exact ⟨moves, rfl, .inr ⟨width, rfl⟩⟩

theorem indentation_covers (found : c.indentation = (.ok x, c')) : c.Covers x c' := by
  obtain ⟨moves, point, token⟩ := indentation_ok found
  have plain : x.token.symbol = none := by
    rcases token with token | ⟨width, token⟩ <;> rw [token] <;> rfl
  exact ⟨moves, by rw [point]; rfl, by rw [point]; exact Nat.le_refl _, by simp [plain]⟩

theorem escape_precedes {byte : UInt8} (found : c.escape = (.ok byte, c')) (next : c.peek = some ch) :
    c.Precedes c' := by
  have first := precedes_advance next
  unfold escape at found
  simp only [pop] at found
  split at found
  · cases found
  · next second =>
    split at found
    · next high low upper lower =>
      cases found
      obtain ⟨_, upper, -⟩ := Option.bind_eq_some_iff.1 upper
      obtain ⟨_, lower, -⟩ := Option.bind_eq_some_iff.1 lower
      exact ((first.trans (precedes_advance second)).trans (precedes_advance upper)).trans (precedes_advance lower)
    · cases found
  · next second =>
    split at found
    · cases found
      exact first.trans (precedes_advance second)
    · cases found

/-- A literal that starts at an offset and ends where reading stopped. -/
structure Literal (c : Cursor) (offset : Nat) (x : Lexeme) (c' : Cursor) : Prop where
  moves : c.Precedes c'
  start : x.span.start = offset
  stop : x.span.stop = c'.position
  literal : x.token.isLiteral = true

theorem Literal.behind (literal : c'.Literal start x c'') (moves : c.Precedes c') : c.Literal start x c'' :=
  ⟨moves.trans literal.moves, literal.start, literal.stop, literal.literal⟩

theorem stringFrom_literal {bytes : List UInt8} (found : stringFrom start bytes c = (.ok x, c')) :
    c.Literal start x c' := by
  fun_induction stringFrom start bytes c with
  | case1 | case2 | case5 => cases found
  | case3 _ c _ here =>
    cases found
    exact ⟨precedes_advance (show c.peek = some '\x22' by rw [peek, here]; rfl), rfl, rfl, rfl⟩
  | case4 _ c rest _ _ escaped here _ _ ih =>
    exact (ih found).behind (escape_precedes escaped (show c.peek = some '\\' by rw [peek, here]; rfl))
  | case6 _ c ch rest here _ _ _ ih =>
    exact (ih found).behind (precedes_advance (show c.peek = some ch by rw [peek, here]; rfl))

theorem charLiteral_literal (found : c.charLiteral = (.ok x, c')) (next : c.peek = some ch) :
    c.Literal c.position x c' := by
  have first := precedes_advance next
  have closes : ∀ {inner : Cursor} {value : Char}, c.Precedes inner →
      (if inner.peek = some '\x27' then inner.advance.lexeme c.position (.char value)
        else inner.refuse c.position .unterminatedChar) = (.ok x, c') → c.Literal c.position x c' := by
    intro inner value moves found
    split at found
    · next quote =>
      cases found
      exact ⟨moves.trans (precedes_advance quote), rfl, rfl, rfl⟩
    · cases found
  unfold charLiteral at found
  dsimp only at found
  split at found
  · cases found
  · next value inner body =>
    refine closes ?_ found
    split at body
    · cases body
    · cases body
    · cases body
    · next second =>
      split at body
      · next escaped =>
        cases body
        exact first.trans (escape_precedes escaped second)
      · cases body
    · next second =>
      cases body
      exact first.trans (precedes_advance second)

/-- The mark of a radix takes two characters. -/
theorem precedes_mark {n : Nat} (radix : c.radix? = some n) : c.Precedes c.advance.advance := by
  unfold radix? at radix
  split at radix
  · next first second => exact (precedes_advance first).trans (precedes_advance second)
  · cases radix

theorem number_literal (found : c.number = (.ok x, c')) : c.Literal c.position x c' := by
  have ends : ∀ {inner : Cursor} (value : Int), c.Precedes inner →
      c.Literal c.position ⟨.int value, ⟨c.position, (inner.skip isNumberChar).position⟩⟩
        (inner.skip isNumberChar) := by
    intro inner value moves
    exact ⟨moves.trans (precedes_skip isNumberChar inner), rfl, rfl, rfl⟩
  unfold number at found
  cases radix : c.radix? with
  | none =>
    rw [radix] at found
    dsimp only at found
    split at found
    · cases found
    · split at found
      · cases found
        exact ends _ (.refl c)
      · cases found
  | some n =>
    rw [radix] at found
    dsimp only at found
    split at found
    · cases found
    · split at found
      · cases found
        exact ends _ (precedes_mark radix)
      · cases found

/-- A lexeme within a line, and the slice of the text that it takes. -/
structure Takes (c : Cursor) (x : Lexeme) (slice : List Char) (c' : Cursor) : Prop where
  whole : c.rest = slice ++ c'.rest
  filled : slice ≠ []
  moved : c'.position = c.position + byteLength slice
  span : x.span = ⟨c.position, c'.position⟩
  inline : x.token.Inline
  word : ∀ text, x.token.symbol = some text →
    text = String.ofList slice ∨ ∃ ch, slice = [ch] ∧ unicodeAlias ch = some text

theorem Takes.covers {slice : List Char} (takes : c.Takes x slice c') : c.Covers x c' := by
  have size := byteLength_pos takes.filled
  have moved := takes.moved
  have total : byteLength c.rest = byteLength slice + byteLength c'.rest := by
    rw [takes.whole, byteLength_append]
  have moves : c.Precedes c' := ⟨by omega, by omega⟩
  refine ⟨moves, ?_, ?_, fun _ => ?_⟩ <;> simp only [takes.span]
  · exact moves.forward
  · omega

theorem Literal.takes {slice : List Char} (literal : c.Literal c.position x c') (whole : c.rest = slice ++ c'.rest)
    (filled : slice ≠ []) : c.Takes x slice c' := by
  have span : x.span = ⟨c.position, c'.position⟩ := by
    rw [← literal.start, ← literal.stop]
  refine ⟨whole, filled, literal.moves.position_eq whole, span, Token.inline_of_isLiteral literal.literal, ?_⟩
  intro text named
  have plain := Token.isLiteral_word named
  simp [literal.literal] at plain

theorem lexemeOf_takes {token : String → Token} (next : c.peek = some ch) (inside : p ch = true)
    (inline : ∀ text, (token text).Inline) (symbol : ∀ text, (token text).symbol = some text)
    (found : c.lexemeOf p token = (.ok x, c')) : c.Takes x (c.run p) c' := by
  cases found
  refine ⟨(List.takeWhile_append_dropWhile).symm, ?_, rfl, rfl, inline _, ?_⟩
  · rw [run, rest_of_peek next, List.takeWhile_cons_of_pos inside]
    simp
  · intro text named
    rw [symbol, Option.some.injEq] at named
    exact .inl named.symm

theorem single_takes {text : String} (next : c.peek = some ch)
    (same : text = String.ofList [ch] ∨ unicodeAlias ch = some text)
    (found : c.single text = (.ok x, c')) : c.Takes x [ch] c' := by
  cases found
  refine ⟨rest_of_peek next, by simp, advance_position next, rfl, by simp [Token.Inline], ?_⟩
  intro text' named
  cases named
  exact same.imp_right fun aliased => ⟨ch, rfl, aliased⟩

theorem lexemeHere_takes (found : c.lexemeHere = (.ok x, c')) (next : c.peek = some ch) (line : ch ≠ '\n') :
    ∃ slice, c.Takes x slice c' := by
  -- what is taken of the text is told by what is left of it
  obtain ⟨taken, behind⟩ : c'.rest <:+ c.rest.tail := by
    have suffix := lexemeHere_suffix next (congrArg Prod.fst found)
    rwa [found] at suffix
  have whole : c.rest = ch :: taken ++ c'.rest := by
    rw [rest_of_peek next, ← behind, List.cons_append]
  have name (text : String) : (Token.name text).Inline := by simp [Token.Inline]
  have operator (text : String) : (Token.operator text).Inline := by simp [Token.Inline]
  simp only [lexemeHere, next, if_neg line] at found
  split at found
  · have literal := (stringFrom_literal found).behind (precedes_advance next)
    exact ⟨_, literal.takes whole (by simp)⟩
  split at found
  · exact ⟨_, (charLiteral_literal found next).takes whole (by simp)⟩
  split at found
  · exact ⟨_, (number_literal found).takes whole (by simp)⟩
  split at found
  · next text aliased => exact ⟨_, single_takes next (.inr aliased) found⟩
  split at found
  · next letter => exact ⟨_, lexemeOf_takes next (isNameChar_of_start letter) name (fun _ => rfl) found⟩
  split at found
  · exact ⟨_, single_takes next (.inl rfl) found⟩
  split at found
  · next symbol => exact ⟨_, lexemeOf_takes next symbol operator (fun _ => rfl) found⟩
  split at found
  · exact ⟨_, single_takes next (.inl rfl) found⟩
  · cases found

theorem lexemeHere_covers (found : c.lexemeHere = (.ok x, c')) : c.Covers x c' := by
  cases next : c.peek with
  | none =>
    simp only [lexemeHere, next] at found
    cases found
    exact ⟨.refl c, rfl, Nat.le_refl _, by simp [Token.symbol]⟩
  | some ch =>
    by_cases line : ch = '\n'
    · have broken : c.advance.indentation = (.ok x, c') := by
        simpa [lexemeHere, next, line] using found
      exact (indentation_covers broken).behind (precedes_advance next)
    · obtain ⟨slice, takes⟩ := lexemeHere_takes found next line
      exact takes.covers

end Cursor

namespace Lexer

variable {l : Lexer} {x : Lexeme}

theorem next_covers (found : l.next.1 = .ok x) : l.cursor.Covers x l.next.2.cursor := by
  obtain ⟨c, fresh⟩ := l
  cases fresh with
  | true => exact Cursor.indentation_covers (Prod.ext found rfl)
  | false => exact (Cursor.lexemeHere_covers (Prod.ext found rfl)).behind c.precedes_skipBlanks

/-- A lexeme starts behind everything that has been read; what is no part of a line takes nothing. -/
theorem next_behind (found : l.next.1 = .ok x) :
    l.cursor.position ≤ x.span.start ∧ (x.token.Inline ∨ x.span.start = x.span.stop) := by
  have point {c c' : Cursor} (broken : c.indentation = (.ok x, c')) :
      c.position ≤ x.span.start ∧ (x.token.Inline ∨ x.span.start = x.span.stop) := by
    obtain ⟨moves, place, -⟩ := Cursor.indentation_ok broken
    rw [place]
    exact ⟨moves.forward, .inr rfl⟩
  obtain ⟨c, fresh⟩ := l
  cases fresh with
  | true => exact point (Prod.ext found rfl)
  | false =>
    have blanks := c.precedes_skipBlanks.forward
    replace found : c.skipBlanks.lexemeHere = (.ok x, c.skipBlanks.lexemeHere.2) := Prod.ext found rfl
    cases next : c.skipBlanks.peek with
    | none =>
      simp only [Cursor.lexemeHere, next] at found
      cases found
      exact ⟨blanks, .inr rfl⟩
    | some ch =>
      by_cases line : ch = '\n'
      · rw [Cursor.lexemeHere, next] at found
        simp only [line, if_true] at found
        exact (point found).imp_left ((blanks.trans (Cursor.precedes_advance next).forward).trans)
      · obtain ⟨slice, takes⟩ := Cursor.lexemeHere_takes found next line
        rw [takes.span]
        exact ⟨blanks, .inl takes.inline⟩

/-- The lexemes of a text of which nothing is refused follow each other, its end included. -/
theorem lexemes_follow {xs : List Lexeme} (accepted : l.lexemes = xs.map .ok) :
    xs.Pairwise (fun x y => x.span.stop ≤ y.span.start) ∧
      ∀ x ∈ xs, l.cursor.position ≤ x.span.start ∧ x.span.start ≤ x.span.stop ∧
        (x.token.Inline ∨ x.span.start = x.span.stop) := by
  induction l using lexemes.induct generalizing xs with
  | case1 l e found =>
    have next : l.next = (.error e, l.next.2) := by rw [← found]
    rw [lexemes_of_error next] at accepted
    cases xs <;> cases accepted
  | case2 l x found ih =>
    have next : l.next = (.ok x, l.next.2) := by rw [← found]
    have covers := next_covers found
    obtain ⟨behind, inline⟩ := next_behind found
    by_cases last : x.token = .eof
    · rw [lexemes_of_eof next last] at accepted
      obtain ⟨y, rest, rfl, same, none⟩ := List.map_eq_cons_iff.1 accepted.symm
      cases same
      obtain rfl := List.map_eq_nil_iff.1 none
      exact ⟨List.pairwise_singleton .., by simpa using ⟨behind, covers.start, inline⟩⟩
    · rw [lexemes_of_next next last] at accepted
      obtain ⟨y, rest, rfl, same, others⟩ := List.map_eq_cons_iff.1 accepted.symm
      cases same
      obtain ⟨ordered, later⟩ := ih last others.symm
      rw [← covers.stop] at later
      refine ⟨List.pairwise_cons.2 ⟨fun y inside => (later y inside).1, ordered⟩, ?_⟩
      refine List.forall_mem_cons.2 ⟨⟨behind, covers.start, inline⟩, fun y inside => ⟨?_, (later y inside).2⟩⟩
      exact (behind.trans covers.start).trans (later y inside).1

/-- Every lexeme is covered between two cursors that the reading passes. -/
theorem lexemes_covers (inside : .ok x ∈ l.lexemes) :
    ∃ c c' : Cursor, l.cursor.Precedes c ∧ c.Covers x c' := by
  induction l using lexemes.induct with
  | case1 l e found =>
    have next : l.next = (.error e, l.next.2) := by rw [← found]
    rw [lexemes_of_error next] at inside
    simp at inside
  | case2 l y found ih =>
    have next : l.next = (.ok y, l.next.2) := by rw [← found]
    have covers := next_covers found
    by_cases last : y.token = .eof
    · rw [lexemes_of_eof next last, List.mem_singleton] at inside
      cases inside
      exact ⟨_, _, .refl _, covers⟩
    · rw [lexemes_of_next next last] at inside
      rcases List.mem_cons.1 inside with same | later
      · cases same
        exact ⟨_, _, .refl _, covers⟩
      · obtain ⟨c, c', before, covers'⟩ := ih last later
        exact ⟨c, c', covers.moves.trans before, covers'⟩

end Lexer

/-- Every lexeme stands inside the text, but for the end of it, and a word takes at least one byte. -/
theorem lexemes_extent {text : String} {x : Lexeme} (inside : .ok x ∈ lexemes text) (more : x.token ≠ .eof) :
    x.span.start ≤ x.span.stop ∧ x.span.stop ≤ text.utf8ByteSize ∧
      (x.token.symbol.isSome = true → x.span.start < x.span.stop) := by
  cases chars : text.toList with
  | nil =>
    have whole : lexemes text = [.ok ⟨.eof, ⟨1, 1⟩⟩] := by
      rw [lexemes, Lexer.ofString, chars]
      exact Lexer.lexemes_of_eof rfl rfl
    rw [whole, List.mem_singleton] at inside
    cases inside
    exact absurd rfl more
  | cons ch rest =>
    obtain ⟨c, c', before, covers⟩ := Lexer.lexemes_covers inside
    have total := (before.trans covers.moves).total
    have size := Cursor.byteLength_toList text
    rw [chars] at size
    simp only [Lexer.ofString, Lexer.ofChars, Cursor.start, chars, List.isEmpty_cons] at total
    have stop := covers.stop
    refine ⟨covers.start, ?_, covers.word⟩
    simp only [Bool.false_eq_true, if_false] at total
    omega

end MixfixLambda
