import Mathlib.Data.List.TakeWhile
import MixfixLambda.Proofs.Token.Extent
import MixfixLambda.Proofs.Token.Literal

/-!
# What tokens are made of

Every token that is read of a text could be written again: words have the shapes that `IsWord` lists, and
integers are those that fit. In particular no word is the start of a comment.
-/
namespace MixfixLambda

/-- A token that some text spells. -/
def Token.Lexical : Token → Prop
  | .name text | .operator text => IsWord text.toList
  | .int value => 0 ≤ value ∧ value ≤ maxInt
  | _ => True

/-- The lexer makes no empty words. -/
theorem Token.Lexical.worded {token : Token} (lexical : token.Lexical) : token.symbol ≠ some "" := by
  intro empty
  cases token with
  | name word | operator word =>
    cases empty
    cases lexical
  | _ => cases empty

namespace Cursor

variable {c : Cursor} {x : Lexeme}

theorem indentation_lexical (found : c.indentation.1 = .ok x) : x.token.Lexical := by
  obtain ⟨-, -, token | ⟨width, token⟩⟩ := indentation_ok (Prod.ext found rfl)
  · rw [token]
    trivial
  · rw [token]
    trivial

theorem stringFrom_lexical {start : Nat} {bytes : List UInt8} (found : (stringFrom start bytes c).1 = .ok x) :
    x.token.Lexical := by
  fun_induction stringFrom start bytes c with
  | case1 | case2 | case5 => cases found
  | case3 =>
    cases found
    trivial
  | case4 _ _ _ _ _ _ _ _ _ ih => exact ih found
  | case6 _ _ _ _ _ _ _ _ ih => exact ih found

theorem charLiteral_lexical (found : c.charLiteral.1 = .ok x) : x.token.Lexical := by
  unfold charLiteral at found
  dsimp only at found
  split at found
  · cases found
  · split at found
    · cases found
      trivial
    · cases found

/-- As long as a number fits, so does what is read of it. -/
theorem push_fits {radix : Nat} {n : NumberPrefix} (fits : ∀ v ∈ n.value, (v : Int) ≤ maxInt) (ch : Char) :
    ∀ v ∈ (n.push radix ch).value, (v : Int) ≤ maxInt := by
  unfold NumberPrefix.push
  split
  · exact fits
  · split
    · intro v found
      simp only [Option.mem_def, Option.bind_eq_some_iff] at found
      obtain ⟨-, -, w, -, sum⟩ := found
      unfold fitting at sum
      split at sum
      · cases sum
        assumption
      · cases sum
    · exact fits

theorem foldl_push_fits {radix : Nat} (text : List Char) {n : NumberPrefix}
    (fits : ∀ v ∈ n.value, (v : Int) ≤ maxInt) :
    ∀ v ∈ (text.foldl (NumberPrefix.push radix) n).value, (v : Int) ≤ maxInt := by
  induction text generalizing n with
  | nil => exact fits
  | cons ch text ih => exact ih (push_fits fits ch)

theorem number_lexical (found : c.number.1 = .ok x) : x.token.Lexical := by
  unfold number at found
  generalize c.radix? = radix at found
  cases radix
  all_goals
    dsimp only at found
    split at found
    · cases found
    · split at found
      · next value here =>
        cases found
        refine ⟨Int.natCast_nonneg value, foldl_push_fits _ ?_ value here⟩
        intro v zero
        cases zero
        decide
      · cases found

theorem alias_isWord {ch : Char} {text : String} (found : unicodeAlias ch = some text) :
    IsWord text.toList := by
  unfold unicodeAlias at found
  split at found <;> cases found <;> decide

/-- The lexeme at a cursor that is no comment. -/
theorem lexemeHere_lexical (comment : c.peek = some '-' → c.peekSecond ≠ some '-')
    (found : c.lexemeHere.1 = .ok x) : x.token.Lexical := by
  obtain ⟨position, text⟩ := c
  cases text with
  | nil =>
    cases found
    trivial
  | cons ch tail =>
    have alone : ch.toString.toList = [ch] := String.toList_singleton ch
    simp only [lexemeHere, peek, List.head?_cons] at found
    split at found
    · exact indentation_lexical found
    split at found
    · exact stringFrom_lexical found
    split at found
    · exact charLiteral_lexical found
    split at found
    · exact number_lexical found
    split at found
    · next text alias_ =>
      cases found
      exact alias_isWord alias_
    next unaliased =>
    split at found
    · next letter =>
      cases found
      rw [Bool.or_eq_true, beq_iff_eq] at letter
      have named : isNameChar ch = true := by
        rcases letter with letter | rfl
        · simp [isNameChar, Text.isAlphanumeric, letter]
        · decide
      change IsWord (String.ofList ((ch :: tail).takeWhile isNameChar)).toList
      rw [String.toList_ofList, List.takeWhile_cons_of_pos named]
      exact .identifier letter unaliased fun d inside => List.mem_takeWhile_imp inside
    next letter =>
    split at found
    · next punctuation =>
      cases found
      exact (alone ▸ .punctuation punctuation : IsWord ch.toString.toList)
    split at found
    · next symbol =>
      cases found
      change IsWord (String.ofList ((ch :: tail).takeWhile isSymbolChar)).toList
      rw [String.toList_ofList, List.takeWhile_cons_of_pos symbol]
      refine .symbols (fun d inside => ?_) fun dash second => ?_
      · rcases List.mem_cons.1 inside with rfl | inside
        · exact symbol
        · exact List.mem_takeWhile_imp inside
      · refine comment (congrArg some dash) ?_
        cases tail with
        | nil => cases second
        | cons d tail =>
          rw [List.takeWhile_cons] at second
          split at second
          · exact second
          · cases second
    split at found
    · next visible =>
      cases found
      simp only [Bool.and_eq_true, decide_eq_true_eq, Bool.not_eq_true', Bool.or_eq_true, not_or,
        Bool.not_eq_true] at visible letter
      have other := IsWord.other visible.1.1 (by simp [visible]) unaliased letter.1
      exact (alone ▸ other : IsWord ch.toString.toList)
    · cases found

theorem skipBlanks_no_comment (c : Cursor) :
    c.skipBlanks.peek = some '-' → c.skipBlanks.peekSecond ≠ some '-' := by
  unfold skipBlanks
  dsimp only
  split
  · intro dash
    have line : ∀ ch ∈ (((c.skip isLineBlank).skip (· != '\n')).rest).head?, ch = '\n' := by
      intro ch found
      have stopped := List.head?_dropWhile_not (· != '\n') (c.skip isLineBlank).rest
      rw [show ((c.skip isLineBlank).rest.dropWhile (· != '\n')).head? = some ch from found] at stopped
      simpa using stopped
    exact absurd (line '-' dash) (by decide)
  · next plain => exact fun dash second => plain ⟨dash, second⟩

end Cursor

namespace Lexer

theorem next_lexical {l : Lexer} {x : Lexeme} (found : l.next.1 = .ok x) : x.token.Lexical := by
  obtain ⟨c, fresh⟩ := l
  cases fresh with
  | true => exact Cursor.indentation_lexical found
  | false => exact Cursor.lexemeHere_lexical c.skipBlanks_no_comment found

theorem lexemes_lexical {l : Lexer} {x : Lexeme} (inside : .ok x ∈ l.lexemes) : x.token.Lexical := by
  induction l using lexemes.induct with
  | case1 l e found =>
    have next : l.next = (.error e, l.next.2) := by rw [← found]
    rw [lexemes_of_error next] at inside
    simp at inside
  | case2 l y found ih =>
    have next : l.next = (.ok y, l.next.2) := by rw [← found]
    by_cases last : y.token = .eof
    · rw [lexemes_of_eof next last, List.mem_singleton] at inside
      cases inside
      exact next_lexical found
    · rw [lexemes_of_next next last] at inside
      rcases List.mem_cons.1 inside with same | later
      · cases same
        exact next_lexical found
      · exact ih last later

end Lexer

end MixfixLambda
