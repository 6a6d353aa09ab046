import Mathlib.Tactic.FinCases
import MixfixLambda.Token.Stream
import MixfixLambda.Tree.Printer

/-!
# How tokens are spelled

A text spells a token in front of a rest if the lexer reads this one token of it and goes on with the
rest, wherever the text stands. Only the first character of the rest matters: a name ends where no
further character of names follows, and a run of symbols where no symbol does.
-/
namespace MixfixLambda

namespace Cursor

variable {p : Char → Bool} {text rest : List Char}

/-- Nothing of a class comes next. -/
def Ends (p : Char → Bool) (rest : List Char) : Prop :=
  ∀ c ∈ rest.head?, p c = false

@[simp]
theorem ends_nil : Ends p [] := by
  simp [Ends]

@[simp]
theorem ends_cons {c : Char} : Ends p (c :: rest) ↔ p c = false := by
  simp [Ends]

theorem Ends.takeWhile (h : Ends p rest) : rest.takeWhile p = [] := by
  cases rest with
  | nil => rfl
  | cons c rest => simp [ends_cons.1 h]

theorem Ends.dropWhile (h : Ends p rest) : rest.dropWhile p = rest := by
  cases rest with
  | nil => rfl
  | cons c rest => simp [ends_cons.1 h]

theorem run_append (all : ∀ c ∈ text, p c = true) (ends : Ends p rest) (position : Nat) :
    run p ⟨position, text ++ rest⟩ = text := by
  simp [run, List.takeWhile_append_of_pos all, ends.takeWhile]

theorem skip_append (all : ∀ c ∈ text, p c = true) (ends : Ends p rest) (position : Nat) :
    skip p ⟨position, text ++ rest⟩ = ⟨position + byteLength text, rest⟩ := by
  simp [skip, run_append all ends, List.dropWhile_append_of_pos all, ends.dropWhile]

end Cursor

namespace Lexer

/-- A lexer that has already read something, in front of a text. -/
def amid (position : Nat) (text : List Char) : Lexer :=
  ⟨⟨position, text⟩, false⟩

theorem lexemes_of_next {l l' : Lexer} {x : Lexeme} (next : l.next = (.ok x, l'))
    (more : x.token ≠ .eof) : l.lexemes = .ok x :: l'.lexemes := by
  rw [lexemes]
  split
  · next e found => simp [next] at found
  · next y found =>
    rw [next] at found
    cases found
    rw [dif_neg more, next]

theorem lexemes_of_error {l l' : Lexer} {e : LexicalError} (next : l.next = (.error e, l')) :
    l.lexemes = [.error e] := by
  rw [lexemes]
  split
  · next found =>
    rw [next] at found
    cases found
    rfl
  · next found => simp [next] at found

theorem lexemes_of_eof {l l' : Lexer} {x : Lexeme} (next : l.next = (.ok x, l'))
    (last : x.token = .eof) : l.lexemes = [.ok x] := by
  rw [lexemes]
  split
  · next found => simp [next] at found
  · next found =>
    rw [next] at found
    cases found
    rw [dif_pos last]

/-- What is read depends on the next lexeme and what is behind it only. -/
theorem lexemes_congr {l l' : Lexer} (same : l.next = l'.next) : l.lexemes = l'.lexemes := by
  cases found : l'.next with
  | mk first behind =>
    rw [found] at same
    cases first with
    | error e => rw [lexemes_of_error same, lexemes_of_error found]
    | ok x =>
      by_cases last : x.token = .eof
      · rw [lexemes_of_eof same last, lexemes_of_eof found last]
      · rw [lexemes_of_next same last, lexemes_of_next found last]

/-- A space between lexemes is passed over. -/
theorem lexemes_space (position : Nat) (rest : List Char) :
    (amid position (' ' :: rest)).lexemes = (amid (position + 1) rest).lexemes := by
  have skip : Cursor.skip Cursor.isLineBlank ⟨position, ' ' :: rest⟩ =
      Cursor.skip Cursor.isLineBlank ⟨position + 1, rest⟩ := by
    have blank : Cursor.isLineBlank ' ' = true := by decide
    have one : Char.utf8Size ' ' = 1 := rfl
    simp [Cursor.skip, Cursor.run, Cursor.byteLength, blank, one, Nat.add_assoc]
  have unblank : Cursor.skipBlanks ⟨position, ' ' :: rest⟩ = Cursor.skipBlanks ⟨position + 1, rest⟩ := by
    unfold Cursor.skipBlanks
    rw [skip]
  refine lexemes_congr ?_
  simp only [next, amid, unblank, Bool.false_eq_true, if_false]

end Lexer

/-- The text is read as the token when the rest follows, wherever it stands. -/
def Spells (text rest : List Char) (token : Token) : Prop :=
  ∀ position, ∃ span after,
    (Lexer.amid position (text ++ rest)).lexemes = .ok ⟨token, span⟩ :: (Lexer.amid after rest).lexemes

/-- The text is read as one word when the rest follows: as a token that rules are looked up for. -/
def SpellsWord (text rest : List Char) : Prop :=
  ∃ token : Token, token.symbol = some (String.ofList text) ∧ Spells text rest token

namespace Cursor

/-- A text that starts with no blank and no comment is read where it starts. -/
theorem spells_of_lexemeHere {text rest : List Char} {token : Token} {c : Char} (more : token ≠ .eof)
    (first : (text ++ rest).head? = some c) (blank : isLineBlank c = false)
    (comment : c = '-' → (text ++ rest).tail.head? ≠ some '-')
    (here : ∀ position, ∃ span after,
      lexemeHere ⟨position, text ++ rest⟩ = (.ok ⟨token, span⟩, ⟨after, rest⟩)) :
    Spells text rest token := by
  intro position
  obtain ⟨span, after, read⟩ := here position
  refine ⟨span, after, Lexer.lexemes_of_next ?_ more⟩
  have unblank : skipBlanks ⟨position, text ++ rest⟩ = ⟨position, text ++ rest⟩ := by
    have ends : Ends isLineBlank (text ++ rest) := by
      intro d found
      rw [first] at found
      cases found
      exact blank
    have stays : skip isLineBlank ⟨position, [] ++ (text ++ rest)⟩ = ⟨position + byteLength [], text ++ rest⟩ :=
      skip_append (by simp) ends position
    simp only [List.nil_append, byteLength, List.foldr_nil, Nat.add_zero] at stays
    unfold skipBlanks
    rw [stays]
    refine if_neg fun ⟨dash, second⟩ => ?_
    rw [peek, first] at dash
    exact comment (Option.some.inj dash) second
  simp only [Lexer.next, Lexer.amid, Bool.false_eq_true, if_false, unblank, read]

/-- A character that starts no literal and separates nothing. -/
def StartsWord (c : Char) : Prop :=
  isLineBlank c = false ∧ c ≠ '\n' ∧ c ≠ '\x22' ∧ c ≠ '\x27' ∧ c.isDigit = false

instance (c : Char) : Decidable (StartsWord c) :=
  inferInstanceAs (Decidable (_ ∧ _))

/-- What holds of every ASCII character by inspection. -/
theorem forall_low {P : Char → Prop} (each : ∀ n < 0x80, P (Char.ofNat n)) (c : Char)
    (low : c.toNat < 0x80) : P c := by
  have here := each c.toNat low
  rwa [Char.ofNat_toNat] at here

theorem startsWord_of_low : ∀ c : Char, c.toNat < 0x80 →
    c.isAlpha ∨ c = '_' ∨ isPunctuation c ∨ isSymbolChar c → StartsWord c := by
  refine forall_low ?_
  decide

theorem isDigit_low {c : Char} (digit : c.isDigit = true) : c.toNat < 0x80 := by
  simp only [Char.isDigit, Bool.and_eq_true, decide_eq_true_eq, UInt32.le_iff_toNat_le] at digit
  have below : c.toNat ≤ 0x39 := digit.2
  omega

theorem startsWord_of_high {c : Char} (high : 0x80 ≤ c.toNat) : StartsWord c := by
  refine ⟨?_, ?_, ?_, ?_, ?_⟩
  · cases blank : isLineBlank c with
    | false => rfl
    | true =>
      simp only [isLineBlank, Bool.or_eq_true, beq_iff_eq] at blank
      rcases blank with ((rfl | rfl) | rfl) | rfl <;> exact absurd high (by decide)
  · rintro rfl; exact absurd high (by decide)
  · rintro rfl; exact absurd high (by decide)
  · rintro rfl; exact absurd high (by decide)
  · exact Bool.eq_false_iff.2 fun digit => absurd (isDigit_low digit) (Nat.not_lt.2 high)

theorem startsWord {c : Char} (word : Text.isAlphabetic c ∨ c = '_' ∨ isPunctuation c ∨ isSymbolChar c) :
    StartsWord c := by
  by_cases low : c.toNat < 0x80
  · rw [Text.isAlphabetic, if_pos low] at word
    exact startsWord_of_low c low word
  · exact startsWord_of_high (Nat.le_of_not_lt low)

end Cursor

/-- The texts of names and operators, as they are cut out of a source. -/
inductive IsWord : List Char → Prop
  | identifier {c : Char} {more : List Char} (letter : Text.isAlphabetic c ∨ c = '_')
      (unaliased : unicodeAlias c = none) (inner : ∀ d ∈ more, Cursor.isNameChar d = true) :
      IsWord (c :: more)
  /-- Two dashes would start a comment. -/
  | symbols {c : Char} {more : List Char} (all : ∀ d ∈ c :: more, isSymbolChar d = true)
      (comment : c = '-' → more.head? ≠ some '-') : IsWord (c :: more)
  | punctuation {c : Char} (single : isPunctuation c = true) : IsWord [c]
  | other {c : Char} (high : 0x80 ≤ c.toNat) (visible : (Text.isControl c || Text.isBlank c) = false)
      (unaliased : unicodeAlias c = none) (letter : Text.isAlphabetic c = false) : IsWord [c]

/-- Decides `IsWord`. -/
def isWordText : List Char → Bool
  | [] => false
  | c :: more =>
    (Text.isAlphabetic c || c == '_') && (unicodeAlias c).isNone && more.all Cursor.isNameChar
      || (c :: more).all isSymbolChar && !(c == '-' && more.head? == some '-')
      || more.isEmpty && isPunctuation c
      || more.isEmpty && Nat.ble 0x80 c.toNat && !(Text.isControl c || Text.isBlank c)
        && (unicodeAlias c).isNone && !Text.isAlphabetic c

theorem isWordText_iff {text : List Char} : isWordText text = true ↔ IsWord text := by
  constructor
  · intro word
    cases text with
    | nil => cases word
    | cons c more =>
      simp only [isWordText, Bool.or_eq_true, Bool.and_eq_true, List.all_eq_true, Bool.not_eq_true',
        Option.isNone_iff_eq_none, Bool.and_eq_false_imp, beq_iff_eq, beq_eq_false_iff_ne,
        List.isEmpty_iff, Nat.ble_eq] at word
      rcases word with ((⟨⟨letter, unaliased⟩, inner⟩ | ⟨all, comment⟩) | ⟨rfl, single⟩) |
        ⟨⟨⟨⟨rfl, high⟩, visible⟩, unaliased⟩, letter⟩
      · exact .identifier letter unaliased inner
      · exact .symbols all comment
      · exact .punctuation single
      · exact .other high visible unaliased letter
  · intro word
    cases word with
    | identifier letter unaliased inner => simp [isWordText, letter, unaliased, List.all_eq_true.2 inner]
    | @symbols c more all comment =>
      have dash : (c == '-' && more.head? == some '-') = false := by
        simpa [Bool.and_eq_false_imp] using comment
      simp [isWordText, List.all_eq_true.2 all, dash]
    | punctuation single => simp [isWordText, single]
    | other high visible unaliased letter => simp [isWordText, high, visible, unaliased, letter]

instance : DecidablePred IsWord :=
  fun _ => decidable_of_iff _ isWordText_iff

namespace Cursor

variable {rest : List Char}

theorem symbolChar_facts {c : Char} (symbol : isSymbolChar c = true) :
    unicodeAlias c = none ∧ (Text.isAlphabetic c || c == '_') = false ∧ isPunctuation c = false ∧
      isNameChar c = false := by
  rw [isSymbolChar, List.contains_iff_mem] at symbol
  fin_cases symbol <;> decide

theorem punctuation_facts {c : Char} (single : isPunctuation c = true) :
    unicodeAlias c = none ∧ (Text.isAlphabetic c || c == '_') = false ∧ c ≠ '-' := by
  rw [isPunctuation, List.contains_iff_mem] at single
  fin_cases single <;> decide

theorem high_facts {c : Char} (high : 0x80 ≤ c.toNat) :
    isPunctuation c = false ∧ isSymbolChar c = false ∧ c ≠ '_' ∧ c ≠ '-' := by
  refine ⟨?_, ?_, ?_, ?_⟩
  · refine Bool.eq_false_iff.2 fun single => ?_
    rw [isPunctuation, List.contains_iff_mem] at single
    fin_cases single <;> exact absurd high (by decide)
  · refine Bool.eq_false_iff.2 fun symbol => ?_
    rw [isSymbolChar, List.contains_iff_mem] at symbol
    fin_cases symbol <;> exact absurd high (by decide)
  · rintro rfl; exact absurd high (by decide)
  · rintro rfl; exact absurd high (by decide)

theorem isSymbolic_ofList {c : Char} (symbol : isSymbolChar c = true) (more : List Char) :
    isSymbolic (String.ofList (c :: more)) = true := by
  rw [isSymbolic, String.toList_ofList]
  rw [isSymbolChar, List.contains_iff_mem] at symbol
  fin_cases symbol <;> rfl

/-- A word is read by its first character, unless that is another way to write an operator. -/
theorem lexemeHere_word {c : Char} (starts : StartsWord c) (unaliased : unicodeAlias c = none)
    (position : Nat) (tail : List Char) :
    lexemeHere ⟨position, c :: tail⟩ =
      if Text.isAlphabetic c || c == '_' then lexemeOf isNameChar .name ⟨position, c :: tail⟩
      else if isPunctuation c then single ⟨position, c :: tail⟩ c.toString
      else if isSymbolChar c then lexemeOf isSymbolChar .operator ⟨position, c :: tail⟩
      else if 0x80 ≤ c.toNat && !Text.isControl c && !Text.isBlank c then
        single ⟨position, c :: tail⟩ c.toString
      else (.error ⟨.unrecognized c, ⟨position, nextPosition ⟨position, c :: tail⟩⟩⟩,
        ⟨position, c :: tail⟩) := by
  obtain ⟨-, newline, quote, apostrophe, digit⟩ := starts
  simp only [lexemeHere, peek, List.head?_cons, if_neg newline, if_neg quote, if_neg apostrophe,
    digit, Bool.false_eq_true, if_false, unaliased]

theorem lexemeOf_append {p : Char → Bool} {text rest : List Char} (token : String → Token)
    (all : ∀ c ∈ text, p c = true) (ends : Ends p rest) (position : Nat) :
    ∃ span after, lexemeOf p token ⟨position, text ++ rest⟩ =
      (.ok ⟨token (String.ofList text), span⟩, ⟨after, rest⟩) :=
  ⟨_, _, by rw [lexemeOf, run_append all ends, skip_append all ends]; rfl⟩

theorem single_cons (text : String) (c : Char) (position : Nat) (rest : List Char) :
    ∃ span after, single ⟨position, c :: rest⟩ text =
      (.ok ⟨.operator text, span⟩, ⟨after, rest⟩) :=
  ⟨_, _, rfl⟩

theorem spells_punctuation {c : Char} (one : isPunctuation c = true) (rest : List Char) :
    Spells [c] rest (.operator c.toString) := by
  obtain ⟨unaliased, letter, dash⟩ := punctuation_facts one
  have starts := startsWord (.inr (.inr (.inl one)))
  refine spells_of_lexemeHere (c := c) Token.noConfusion rfl starts.1 (absurd · dash) fun position => ?_
  rw [List.singleton_append, lexemeHere_word starts unaliased, letter, if_neg Bool.false_ne_true,
    if_pos one]
  exact single_cons _ c position rest

theorem spellsWord_punctuation {c : Char} (one : isPunctuation c = true) : SpellsWord [c] rest :=
  ⟨.operator c.toString, rfl, spells_punctuation one rest⟩

theorem spellsWord_symbols {c : Char} {more : List Char} (all : ∀ d ∈ c :: more, isSymbolChar d = true)
    (comment : c = '-' → more.head? ≠ some '-') (ends : Ends isSymbolChar rest) :
    SpellsWord (c :: more) rest := by
  have first := all c (List.mem_cons_self ..)
  obtain ⟨unaliased, letter, punctuation, -⟩ := symbolChar_facts first
  have starts := startsWord (.inr (.inr (.inr first)))
  refine ⟨.operator (String.ofList (c :: more)), rfl,
    spells_of_lexemeHere (c := c) Token.noConfusion rfl starts.1 ?_ ?_⟩
  · intro dash
    cases more with
    | nil => exact fun second => absurd (ends '-' second) (by decide)
    | cons d more => exact comment dash
  · intro position
    rw [List.cons_append, lexemeHere_word starts unaliased, letter, if_neg Bool.false_ne_true,
      punctuation, if_neg Bool.false_ne_true, if_pos first, ← List.cons_append]
    exact lexemeOf_append .operator all ends position

/-- A word is read as a whole in front of what continues neither names nor, if it is a run of symbols,
operators. -/
theorem spellsWord {text : List Char} (word : IsWord text) (name : Ends isNameChar rest)
    (symbol : isSymbolic (String.ofList text) = true → Ends isSymbolChar rest) :
    SpellsWord text rest := by
  cases word with
  | @identifier c more letter unaliased inner =>
    have starts := startsWord (letter.elim .inl fun low => .inr (.inl low))
    have dash : c ≠ '-' := by
      rintro rfl
      exact absurd letter (by decide)
    have named : isNameChar c = true := isNameChar_of_start (by simpa using letter)
    refine ⟨.name (String.ofList (c :: more)), rfl,
      spells_of_lexemeHere (c := c) Token.noConfusion rfl starts.1 (absurd · dash) ?_⟩
    intro position
    rw [List.cons_append, lexemeHere_word starts unaliased, if_pos (by simpa using letter),
      ← List.cons_append]
    exact lexemeOf_append .name (List.forall_mem_cons.2 ⟨named, inner⟩) name position
  | @symbols c more all comment =>
    have first := all c (List.mem_cons_self ..)
    exact spellsWord_symbols all comment (symbol (isSymbolic_ofList first more))
  | punctuation one => exact spellsWord_punctuation one
  | @other c high visible unaliased letter =>
    obtain ⟨punctuation, symbolic, underscore, dash⟩ := high_facts high
    have starts := startsWord_of_high high
    rw [Bool.or_eq_false_iff] at visible
    refine ⟨.operator c.toString, rfl,
      spells_of_lexemeHere (c := c) Token.noConfusion rfl starts.1 (absurd · dash) ?_⟩
    intro position
    rw [List.singleton_append, lexemeHere_word starts unaliased, letter, punctuation, symbolic,
      if_neg (by simpa using underscore), if_neg Bool.false_ne_true, if_neg Bool.false_ne_true,
      if_pos (by simp [high, visible])]
    exact single_cons _ c position rest

end Cursor

end MixfixLambda
