import MixfixLambda.Proofs.Token.Lexical

/-!
# Reading in front of a parenthesis

No lexeme goes on over a closing parenthesis, but for literals that lack their end and for comments. So the tokens of a
line of text are the same in front of the parenthesis that closes it, whatever follows, unless the text with this
parenthesis is refused or the parenthesis is part of a comment.
-/
namespace MixfixLambda

namespace Cursor

variable {α : Type} {c c' : Cursor} {ch : Char} {p : Char → Bool} {more text : List Char} {same : α → α → Prop}
  {alone behind : Scan α} {x y : α} {fault fault' : LexicalError} {start start' : Nat}

/-- Reading a text alone, and in front of a parenthesis with more behind it: what is read of the text is read alike, and
where the text is refused it is refused with the parenthesis at its end. -/
structure InFront (more : List Char) (same : α → α → Prop) (text : List Char) (alone behind : Scan α) : Prop where
  read : ∀ {x c}, alone = (.ok x, c) →
    ∃ y c', behind = (.ok y, c') ∧ same x y ∧ c.rest <:+ text ∧ c'.rest = c.rest ++ ')' :: more
  refused : more = [] → ∀ {fault c}, alone = (.error fault, c) → ∃ fault' c', behind = (.error fault', c')

theorem InFront.ok (agrees : same x y) (part : c.rest <:+ text) (rest : c'.rest = c.rest ++ ')' :: more) :
    InFront more same text (.ok x, c) (.ok y, c') where
  read found := by
    cases found
    exact ⟨y, c', rfl, agrees, part, rest⟩
  refused _ _ _ found := by cases found

theorem InFront.error (refused : more = [] → ∃ fault' c', behind = (.error fault', c')) :
    InFront more same text (.error fault, c) behind where
  read found := by cases found
  refused last _ _ _ := refused last

theorem InFront.errors : InFront more same text (.error fault, c) (.error fault', c') :=
  .error fun _ => ⟨_, _, rfl⟩

theorem InFront.within {inner : List Char} (inFront : InFront more same inner alone behind) (part : inner <:+ text) :
    InFront more same text alone behind where
  read found := by
    obtain ⟨y, c', read, agrees, inside, rest⟩ := inFront.read found
    exact ⟨y, c', read, agrees, inside.trans part, rest⟩
  refused := inFront.refused

/-- The lexeme, which is not the end of the text, is the same token. -/
def Resembles (x y : Lexeme) : Prop :=
  x.token ≠ .eof ∧ y.token = x.token

theorem run_inFront (ends : p ')' = false) (here : c'.rest = c.rest ++ ')' :: more) :
    c'.run p = c.run p ∧ (c'.skip p).rest = (c.skip p).rest ++ ')' :: more := by
  obtain ⟨position, text⟩ := c
  obtain ⟨position', whole⟩ := c'
  dsimp only at here
  subst here
  simp only [run, skip]
  induction text with
  | nil => simp [ends]
  | cons ch text ih =>
    rw [List.cons_append, List.takeWhile_cons, List.takeWhile_cons, List.dropWhile_cons, List.dropWhile_cons]
    split
    · exact ⟨congrArg _ ih.1, ih.2⟩
    · exact ⟨rfl, rfl⟩

theorem lexemeOf_inFront {token : String → Token} (ends : p ')' = false) (more_ : ∀ text, token text ≠ .eof)
    (here : c'.rest = c.rest ++ ')' :: more) :
    InFront more Resembles c.rest (c.lexemeOf p token) (c'.lexemeOf p token) := by
  obtain ⟨read, rest⟩ := run_inFront ends here
  exact .ok ⟨more_ _, by rw [read]⟩ (List.dropWhile_suffix p) rest

/-- Behind the first character both texts go on alike. -/
theorem advance_inFront (filled : c.rest ≠ []) (here : c'.rest = c.rest ++ ')' :: more) :
    c'.advance.rest = c.advance.rest ++ ')' :: more := by
  rw [advance_rest, advance_rest, here, List.tail_append_of_ne_nil filled]

theorem peek_inFront (filled : c.rest ≠ []) (here : c'.rest = c.rest ++ ')' :: more) : c'.peek = c.peek := by
  rw [peek, peek, here, List.head?_append_of_ne_nil _ filled]

theorem single_inFront (text : String) (filled : c.rest ≠ []) (here : c'.rest = c.rest ++ ')' :: more) :
    InFront more Resembles c.rest (c.single text) (c'.single text) :=
  .ok ⟨Token.noConfusion, rfl⟩ (List.tail_suffix _) (advance_inFront filled here)

/-! ### Literals -/

theorem escape_inFront (filled : c.rest ≠ []) (here : c'.rest = c.rest ++ ')' :: more) :
    InFront more Eq c.rest.tail c.escape c'.escape := by
  obtain ⟨position, text⟩ := c
  obtain ⟨position', whole⟩ := c'
  dsimp only at here filled
  subst here
  obtain ⟨slash, text, rfl⟩ := List.exists_cons_of_ne_nil filled
  have digit : Text.digitValue 16 ')' = none := by decide
  cases text with
  | nil => exact .errors
  | cons ch text =>
    by_cases hex : ch = 'x'
    · subst hex
      simp only [escape, advance, pop, peek, List.cons_append, List.tail_cons, List.head?_cons]
      cases text with
      | nil =>
        simp only [List.nil_append, List.head?_nil, List.head?_cons, Option.bind_none, Option.bind_some, digit]
        exact .errors
      | cons high text =>
        cases text with
        | nil =>
          simp only [List.cons_append, List.nil_append, List.tail_cons, List.head?_nil, List.head?_cons,
            Option.bind_none, Option.bind_some, digit]
          cases Text.digitValue 16 high <;> exact .errors
        | cons low text =>
          simp only [List.cons_append, List.tail_cons, List.head?_cons, Option.bind_some]
          split
          · exact .ok rfl ((List.suffix_cons ..).trans ((List.suffix_cons ..).trans (List.suffix_cons ..))) rfl
          · exact .errors
    · simp only [escape, advance, pop, peek, List.cons_append, List.tail_cons, List.head?_cons]
      cases named : escapedByte ch with
      | some byte => exact .ok rfl (List.suffix_cons ..) rfl
      | none => exact .errors

theorem stringFrom_nil {bytes : List UInt8} (ended : c.rest = []) :
    stringFrom start bytes c = c.refuse start .unterminatedString := by
  rw [stringFrom]
  split
  · rfl
  · next found =>
    rw [ended] at found
    cases found

theorem stringFrom_cons {bytes : List UInt8} (next : c.rest = ch :: text) :
    stringFrom start bytes c =
      if ch = '\n' then c.refuse start .unterminatedString
      else if ch = '\x22' then c.advance.lexeme start (.str bytes.reverse)
      else if ch = '\\' then
        match c.escape with
        | (.ok byte, c') => stringFrom start (byte :: bytes) c'
        | (.error fault, c') => (.error fault, c')
      else stringFrom start ((String.utf8EncodeChar ch).reverse ++ bytes) c.advance := by
  rw [stringFrom]
  split
  · next found =>
    rw [next] at found
    cases found
  · next found =>
    rw [next] at found
    cases found
    split
    · rfl
    split
    · rfl
    split
    · split <;> next escaped => rw [escaped]
    · rfl

/-- A string literal has its end in the text, or lacks it with the parenthesis too. -/
theorem stringFrom_inFront {bytes : List UInt8} (start' : Nat) (here : c'.rest = c.rest ++ ')' :: more) :
    InFront more Resembles c.rest (stringFrom start bytes c) (stringFrom start' bytes c') := by
  have filled {c : Cursor} {ch : Char} {text : List Char} (next : c.rest = ch :: text) : c.rest ≠ [] := by
    rw [next]
    exact List.cons_ne_nil _ _
  have whole {c c' : Cursor} {ch : Char} {text : List Char} (here : c'.rest = c.rest ++ ')' :: more)
      (next : c.rest = ch :: text) : c'.rest = ch :: (text ++ ')' :: more) := by
    rw [here, next, List.cons_append]
  fun_induction stringFrom start bytes c generalizing c' with
  | case1 bytes c ended =>
    refine .error fun last => ?_
    rw [ended, last, List.nil_append] at here
    rw [stringFrom_cons here, if_neg (by decide), if_neg (by decide), if_neg (by decide),
      stringFrom_nil (by rw [advance_rest, here]; rfl)]
    exact ⟨_, _, rfl⟩
  | case2 bytes c rest next =>
    rw [stringFrom_cons (whole here next), if_pos rfl]
    exact .errors
  | case3 bytes c rest next =>
    rw [stringFrom_cons (whole here next), if_neg (by decide), if_pos rfl]
    exact .ok ⟨Token.noConfusion, rfl⟩ (List.tail_suffix _) (advance_inFront (filled next) here)
  | case4 bytes c rest byte behind escaped next _ _ ih =>
    obtain ⟨byte', behind', escaped', rfl, part, rest'⟩ := (escape_inFront (filled next) here).read escaped
    rw [stringFrom_cons (whole here next), if_neg (by decide), if_neg (by decide), if_pos rfl, escaped']
    exact (ih rest').within (part.trans (List.tail_suffix _))
  | case5 bytes c rest fault behind escaped next =>
    refine .error fun last => ?_
    obtain ⟨fault', behind', escaped'⟩ := (escape_inFront (filled next) here).refused last escaped
    rw [stringFrom_cons (whole here next), if_neg (by decide), if_neg (by decide), if_pos rfl, escaped']
    exact ⟨_, _, rfl⟩
  | case6 bytes c ch rest next line quote slash ih =>
    rw [stringFrom_cons (whole here next), if_neg line, if_neg quote, if_neg slash]
    exact (ih (advance_inFront (filled next) here)).within (List.tail_suffix _)

/-- The end of a character literal. -/
theorem closing_inFront (value : Char) (here : c'.rest = c.rest ++ ')' :: more) :
    InFront more Resembles c.rest
      (if c.peek = some '\x27' then c.advance.lexeme start (.char value) else c.refuse start .unterminatedChar)
      (if c'.peek = some '\x27' then c'.advance.lexeme start' (.char value)
        else c'.refuse start' .unterminatedChar) := by
  by_cases ended : c.rest = []
  · have quoted : c.peek ≠ some '\x27' := by simp [peek, ended]
    have quoted' : c'.peek ≠ some '\x27' := by simp [peek, here, ended]
    rw [if_neg quoted, if_neg quoted']
    exact .errors
  · rw [peek_inFront ended here]
    split
    · exact .ok ⟨Token.noConfusion, rfl⟩ (List.tail_suffix _) (advance_inFront ended here)
    · exact .errors

theorem charLiteral_inFront (filled : c.rest ≠ []) (here : c'.rest = c.rest ++ ')' :: more) :
    InFront more Resembles c.rest.tail c.charLiteral c'.charLiteral := by
  obtain ⟨position, text⟩ := c
  obtain ⟨position', whole⟩ := c'
  dsimp only at here filled
  subst here
  obtain ⟨quote, text, rfl⟩ := List.exists_cons_of_ne_nil filled
  cases text with
  | nil =>
    -- The parenthesis would be the character, but its quote is missing.
    refine .error ?_
    rintro rfl
    exact ⟨_, _, rfl⟩
  | cons ch text =>
    change InFront more Resembles (ch :: text) (charLiteral ⟨position, quote :: ch :: text⟩)
      (charLiteral ⟨position', quote :: ch :: (text ++ ')' :: more)⟩)
    by_cases quoted : ch = '\x27'
    · subst quoted
      exact .errors
    by_cases line : ch = '\n'
    · subst line
      exact .errors
    by_cases slash : ch = '\\'
    · subst slash
      have rest : (advance ⟨position', quote :: '\\' :: (text ++ ')' :: more)⟩).rest =
          (advance ⟨position, quote :: '\\' :: text⟩).rest ++ ')' :: more := rfl
      have escapes := escape_inFront (List.cons_ne_nil _ _) rest
      simp only [charLiteral, peek, advance_rest, List.tail_cons, List.head?_cons] at escapes ⊢
      generalize escape (advance ⟨position, quote :: '\\' :: text⟩) = alone at escapes ⊢
      generalize escape (advance ⟨position', quote :: '\\' :: (text ++ ')' :: more)⟩) = behind at escapes ⊢
      obtain ⟨⟨fault⟩ | ⟨byte⟩, c⟩ := alone
      · refine .error fun last => ?_
        obtain ⟨fault', c', rfl⟩ := escapes.refused last rfl
        exact ⟨_, _, rfl⟩
      · obtain ⟨byte', c', rfl, rfl, part, rest⟩ := escapes.read rfl
        exact (closing_inFront _ rest).within (part.trans (List.suffix_cons ..))
    · simp only [charLiteral, advance, peek, List.tail_cons, List.head?_cons]
      have rest (position position' : Nat) :
          (Cursor.mk position' (text ++ ')' :: more)).rest = (Cursor.mk position text).rest ++ ')' :: more := rfl
      exact (closing_inFront ch (rest _ _)).within (List.suffix_cons ..)

theorem radix?_inFront (filled : c.rest ≠ []) (here : c'.rest = c.rest ++ ')' :: more) : c'.radix? = c.radix? := by
  obtain ⟨position, text⟩ := c
  obtain ⟨position', whole⟩ := c'
  dsimp only at here filled
  subst here
  obtain ⟨ch, text, rfl⟩ := List.exists_cons_of_ne_nil filled
  cases text with
  | nil =>
    by_cases zero : ch = '0'
    · subst zero
      rfl
    · simp [radix?, peek, zero]
  | cons second text => rfl

/-- A text that names a radix goes on behind it. -/
theorem radix?_some {radix : Nat} (named : c.radix? = some radix) : c.rest ≠ [] ∧ c.advance.rest ≠ [] := by
  obtain ⟨position, text⟩ := c
  cases text with
  | nil => cases named
  | cons first text =>
    cases text with
    | nil => simp [radix?, peek, peekSecond] at named
    | cons second text => exact ⟨List.cons_ne_nil _ _, List.cons_ne_nil _ _⟩

/-- The value of a number behind its last digit. -/
theorem value_inFront (n : NumberPrefix) (part : c.rest <:+ text) (here : c'.rest = c.rest ++ ')' :: more) :
    InFront more Resembles text
      (if n.outOfRadix ∨ n.digits = 0 then c.refuse start .digitOutOfRadix
        else
          match n.value with
          | some value => c.lexeme start (.int value)
          | none => c.refuse start .integerOutOfRange)
      (if n.outOfRadix ∨ n.digits = 0 then c'.refuse start' .digitOutOfRadix
        else
          match n.value with
          | some value => c'.lexeme start' (.int value)
          | none => c'.refuse start' .integerOutOfRange) := by
  split
  · exact .errors
  · cases n.value with
    | none => exact .errors
    | some value => exact .ok ⟨Token.noConfusion, rfl⟩ part here

theorem number_inFront (filled : c.rest ≠ []) (here : c'.rest = c.rest ++ ')' :: more) :
    InFront more Resembles c.rest c.number c'.number := by
  have other : isNumberChar ')' = false := by decide
  unfold number
  rw [radix?_inFront filled here]
  cases named : c.radix? with
  | none =>
    obtain ⟨read, rest⟩ := run_inFront other here
    simp only [read]
    exact value_inFront _ (List.dropWhile_suffix _) rest
  | some radix =>
    have digits := advance_inFront (radix?_some named).2 (advance_inFront filled here)
    obtain ⟨read, rest⟩ := run_inFront other digits
    simp only [read]
    exact value_inFront _ ((List.dropWhile_suffix _).trans ((List.tail_suffix _).trans (List.tail_suffix _))) rest

/-! ### One lexeme -/

theorem lexemeHere_inFront (next : c.rest = ch :: text) (line : ch ≠ '\n') (here : c'.rest = c.rest ++ ')' :: more) :
    InFront more Resembles c.rest c.lexemeHere c'.lexemeHere := by
  have filled : c.rest ≠ [] := by
    rw [next]
    exact List.cons_ne_nil _ _
  have first : c.peek = some ch := by rw [peek, next]; rfl
  have tail : c.advance.rest <:+ c.rest := List.tail_suffix _
  unfold lexemeHere
  rw [peek_inFront filled here, first]
  simp only [if_neg line]
  split
  · exact (stringFrom_inFront _ (advance_inFront filled here)).within tail
  split
  · exact (charLiteral_inFront filled here).within tail
  split
  · exact number_inFront filled here
  split
  · exact single_inFront _ filled here
  split
  · exact lexemeOf_inFront (by decide) (fun _ => Token.noConfusion) here
  split
  · exact single_inFront _ filled here
  split
  · exact lexemeOf_inFront (by decide) (fun _ => Token.noConfusion) here
  split
  · exact single_inFront _ filled here
  · exact .errors

/-! ### The tokens of a line -/

/-- A comment comes next, behind the blanks. -/
def Commented (c : Cursor) : Prop :=
  (c.skip isLineBlank).peek = some '-' ∧ (c.skip isLineBlank).peekSecond = some '-'

theorem skipBlanks_commented (commented : c.Commented) : c.skipBlanks = (c.skip isLineBlank).skip (· != '\n') :=
  if_pos commented

theorem skipBlanks_plain (plain : ¬c.Commented) : c.skipBlanks = c.skip isLineBlank :=
  if_neg plain

theorem commented_inFront (here : c'.rest = c.rest ++ ')' :: more) : c'.Commented ↔ c.Commented := by
  obtain ⟨-, rest⟩ := run_inFront (p := isLineBlank) (by decide) here
  unfold Commented
  rw [peek, peekSecond, rest]
  obtain ⟨position, text⟩ := c.skip isLineBlank
  cases text with
  | nil => simp [peek]
  | cons first text =>
    cases text with
    | nil => simp [peekSecond]
    | cons second text => exact Iff.rfl

/-- A comment takes the parenthesis. -/
theorem skipBlanks_ends (commented : c.Commented) (line : '\n' ∉ c.rest) (here : c'.rest = c.rest ++ [')']) :
    c'.skipBlanks.rest = [] := by
  obtain ⟨-, rest⟩ := run_inFront (p := isLineBlank) (by decide) here
  rw [skipBlanks_commented ((commented_inFront here).2 commented)]
  refine List.dropWhile_eq_nil_iff.2 fun ch member => bne_iff_ne.2 ?_
  rintro rfl
  rw [rest, List.mem_append] at member
  rcases member with member | member
  · exact line ((List.dropWhile_suffix _).mem member)
  · cases member with
    | tail _ none => cases none

theorem skipBlanks_inFront (plain : ¬c.Commented) (here : c'.rest = c.rest ++ ')' :: more) :
    c.skipBlanks.rest <:+ c.rest ∧ c'.skipBlanks.rest = c.skipBlanks.rest ++ ')' :: more := by
  rw [skipBlanks_plain plain, skipBlanks_plain (plain ∘ (commented_inFront here).1)]
  exact ⟨List.dropWhile_suffix _, (run_inFront (by decide) here).2⟩

theorem lexemeHere_nil (ended : c.rest = []) : c.lexemeHere = c.lexeme c.position .eof := by
  have none : c.peek = none := by rw [peek, ended]; rfl
  unfold lexemeHere
  rw [none]

end Cursor

namespace Lexer

/-- The tokens that are read of a text, up to its end or its first fault. -/
def tokens (l : Lexer) : List Token :=
  l.lexemes.filterMap (·.toOption.map Lexeme.token)

end Lexer

/-- The text is read as the tokens when the rest follows, wherever it stands. -/
def SpellsAll (text rest : List Char) (tokens : List Token) : Prop :=
  ∀ position, ∃ (xs : List Lexeme) (after : Nat), xs.map Lexeme.token = tokens ∧
    (Lexer.amid position (text ++ rest)).lexemes = xs.map .ok ++ (Lexer.amid after rest).lexemes

theorem Spells.all {text rest : List Char} {token : Token} (spells : Spells text rest token) :
    SpellsAll text rest [token] := by
  intro position
  obtain ⟨span, after, read⟩ := spells position
  exact ⟨[⟨token, span⟩], after, rfl, read⟩

theorem SpellsAll.append {text text' rest : List Char} {tokens tokens' : List Token}
    (first : SpellsAll text (text' ++ rest) tokens) (second : SpellsAll text' rest tokens') :
    SpellsAll (text ++ text') rest (tokens ++ tokens') := by
  intro position
  obtain ⟨xs, between, same, read⟩ := first position
  obtain ⟨ys, after, same', read'⟩ := second between
  refine ⟨xs ++ ys, after, by rw [List.map_append, same, same'], ?_⟩
  rw [List.append_assoc, read, read', List.map_append, List.append_assoc]

theorem spellsAll_space (rest : List Char) : SpellsAll [' '] rest [] :=
  fun position => ⟨[], position + 1, rfl, Lexer.lexemes_space position rest⟩

/-- Behind the tokens nothing is read of the text and what follows it, or something is refused. -/
def Breaks (text rest : List Char) (tokens : List Token) : Prop :=
  ∀ position, ∃ (xs : List Lexeme) (last : Except LexicalError Lexeme), xs.map Lexeme.token = tokens ∧
    (Lexer.amid position (text ++ rest)).lexemes = xs.map .ok ++ [last] ∧ ∀ x, last = .ok x → x.token = .eof

namespace Lexer

open Cursor

variable {x : Lexeme} {position : Nat} {text rest : List Char} {tokens : List Token}

theorem next_amid {c : Cursor} {outcome : Except LexicalError Lexeme}
    (read : (skipBlanks ⟨position, text⟩).lexemeHere = (outcome, c)) :
    (amid position text).next = (outcome, amid c.position c.rest) := by
  simp only [next, amid, Bool.false_eq_true, if_false, read]

theorem tokens_cons {l l' : Lexer} (next : l.next = (.ok x, l')) (more : x.token ≠ .eof) :
    l.tokens = x.token :: l'.tokens := by
  rw [Lexer.tokens, lexemes_of_next next more, Lexer.tokens]
  rfl

theorem tokens_worded {l : Lexer} {token : Token} (member : token ∈ l.tokens) : token.symbol ≠ some "" := by
  obtain ⟨x, inside, found⟩ := List.mem_filterMap.1 member
  cases x with
  | error fault => cases found
  | ok x =>
    cases found
    exact (lexemes_lexical inside).worded

/-- Where nothing is left but blanks and a comment, the end comes next. -/
theorem lexemes_ended (ended : (skipBlanks ⟨position, text⟩).rest = []) :
    ∃ span, (amid position text).lexemes = [.ok ⟨.eof, span⟩] :=
  ⟨_, lexemes_of_eof (next_amid (lexemeHere_nil ended)) rfl⟩

/-- Behind nothing but blanks the rest is read. -/
theorem spellsAll_blank (blank : (skipBlanks ⟨position, text⟩).rest = []) (plain : ¬Commented ⟨position, text⟩)
    (more : List Char) : SpellsAll text (')' :: more) [] := by
  intro position'
  have here : (skipBlanks ⟨position', text ++ ')' :: more⟩).rest = ')' :: more := by
    rw [(skipBlanks_inFront plain rfl).2, blank, List.nil_append]
  have stays (after : Nat) : skipBlanks ⟨after, ')' :: more⟩ = ⟨after, ')' :: more⟩ := rfl
  cases reached : skipBlanks ⟨position', text ++ ')' :: more⟩ with
  | mk after left =>
    rw [reached] at here
    cases here
    refine ⟨[], after, rfl, lexemes_congr ?_⟩
    simp only [next, amid, Bool.false_eq_true, if_false, reached, stays]

/-- One more lexeme in front of both texts. -/
theorem spellsAll_cons {c : Cursor} (inFront : ∀ position' more, InFront more Resembles text
      (.ok x, c) (skipBlanks ⟨position', text ++ ')' :: more⟩).lexemeHere)
    (outcome : (∀ more, SpellsAll c.rest (')' :: more) tokens) ∨ Breaks c.rest [')'] tokens) :
    (∀ more, SpellsAll text (')' :: more) (x.token :: tokens)) ∨ Breaks text [')'] (x.token :: tokens) := by
  -- What is read behind it is read from its end on.
  have first (position' : Nat) (more : List Char) : ∃ y after, y.token = x.token ∧
      (amid position' (text ++ ')' :: more)).lexemes = .ok y :: (amid after (c.rest ++ ')' :: more)).lexemes := by
    obtain ⟨y, c', read, ⟨other, same⟩, -, rest⟩ := (inFront position' more).read rfl
    refine ⟨y, c'.position, same, ?_⟩
    rw [lexemes_of_next (next_amid read) (same ▸ other), rest]
  refine outcome.imp (fun spells more position' => ?_) fun breaks position' => ?_
  · obtain ⟨y, after, same, read⟩ := first position' more
    obtain ⟨ys, after', tokens, behind⟩ := spells more after
    exact ⟨y :: ys, after', by rw [List.map_cons, same, tokens], by rw [read, behind]; rfl⟩
  · obtain ⟨y, after, same, read⟩ := first position' []
    obtain ⟨ys, last, tokens, behind, ends⟩ := breaks after
    exact ⟨y :: ys, last, by rw [List.map_cons, same, tokens], by rw [read, behind]; rfl, ends⟩

/-- The tokens of a line of text are the same in front of a parenthesis, unless there is no way to close the text. -/
theorem spellsAll_or_breaks (line : '\n' ∉ text) (position : Nat) :
    ∃ tokens, tokens <+: (amid position text).tokens ∧ .eof ∉ tokens ∧
      ((∀ more, SpellsAll text (')' :: more) tokens) ∨ Breaks text [')'] tokens) := by
  induction length : text.length using Nat.strong_induction_on generalizing text position with
  | _ n ih =>
    have here (position' : Nat) (more : List Char) :
        (Cursor.mk position' (text ++ ')' :: more)).rest = (Cursor.mk position text).rest ++ ')' :: more := rfl
    by_cases commented : Commented ⟨position, text⟩
    · refine ⟨[], List.nil_prefix, List.not_mem_nil, .inr fun position' => ?_⟩
      obtain ⟨span, ended⟩ := lexemes_ended (skipBlanks_ends commented line (here position' []))
      exact ⟨[], _, rfl, ended, fun x last => by cases last; rfl⟩
    have blanks (position' : Nat) (more : List Char) := skipBlanks_inFront commented (here position' more)
    cases next : (skipBlanks ⟨position, text⟩).rest with
    | nil => exact ⟨[], List.nil_prefix, List.not_mem_nil, .inl (spellsAll_blank next commented)⟩
    | cons ch behind =>
      have part := (blanks position []).1
      have inside : ch ≠ '\n' := by
        rintro rfl
        exact line (part.mem (next ▸ List.mem_cons_self ..))
      have inFront (position' : Nat) (more : List Char) :=
        (lexemeHere_inFront next inside (blanks position' more).2).within part
      cases read : (skipBlanks ⟨position, text⟩).lexemeHere with
      | mk outcome c =>
        rw [read] at inFront
        cases outcome with
        | error fault =>
          refine ⟨[], List.nil_prefix, List.not_mem_nil, .inr fun position' => ?_⟩
          obtain ⟨fault', c', read'⟩ := (inFront position' []).refused rfl rfl
          exact ⟨[], _, rfl, lexemes_of_error (next_amid read'), fun x last => by cases last⟩
        | ok x =>
          obtain ⟨-, -, -, ⟨more, -⟩, within_, -⟩ := (inFront position []).read rfl
          have shorter : c.rest.length < n := by
            have first : (skipBlanks ⟨position, text⟩).peek = some ch := by rw [peek, next]; rfl
            have taken := (lexemeHere_suffix first (by rw [read])).length_le
            have front := part.length_le
            simp only [read, advance_rest, next, List.tail_cons, List.length_cons] at taken front
            omega
          obtain ⟨tokens, front, ends, outcome⟩ :=
            ih c.rest.length shorter (fun member => line (within_.mem member)) c.position rfl
          refine ⟨x.token :: tokens, ?_, ?_, spellsAll_cons inFront outcome⟩
          · rw [tokens_cons (next_amid read) more]
            exact List.cons_prefix_cons.2 ⟨rfl, front⟩
          · rw [List.mem_cons, not_or]
            exact ⟨fun same => more same.symm, ends⟩

end Lexer

end MixfixLambda
