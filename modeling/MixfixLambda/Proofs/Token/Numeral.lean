import Mathlib.Data.Nat.Digits.Defs
import MixfixLambda.Proofs.Token.Extent
import MixfixLambda.Proofs.Token.Literal

/-!
# How numbers are read

A run of letters, numbers and `_` that starts with a digit is one number. Its value is that of its digits by their
positions in the radix that the run names. The value is computed from the front and given up as soon as it does not
fit; since no digit makes it smaller, it is given up exactly where the number itself does not fit.
-/
namespace MixfixLambda

namespace Numeral

/-- The radix of a run, and what stands behind the prefix that names it. -/
def split : List Char → Nat × List Char
  | '0' :: mark :: body =>
    if mark = 'x' ∨ mark = 'X' then (16, body)
    else if mark = 'o' ∨ mark = 'O' then (8, body)
    else if mark = 'b' ∨ mark = 'B' then (2, body)
    else (10, '0' :: mark :: body)
  | numeral => (10, numeral)

/-- The values of the digits, the first one first. -/
def digits (radix : Nat) (body : List Char) : List Nat :=
  body.filterMap (Text.digitValue radix)

/-- The positional value of the digits. -/
def value (radix : Nat) (body : List Char) : Nat :=
  Nat.ofDigits radix (digits radix body).reverse

/-- Some characters are digits of the radix, and the others are `_`. -/
def WellFormed (radix : Nat) (body : List Char) : Prop :=
  (∃ ch ∈ body, (Text.digitValue radix ch).isSome = true) ∧
    ∀ ch ∈ body, ch = '_' ∨ (Text.digitValue radix ch).isSome = true

instance (radix : Nat) (body : List Char) : Decidable (WellFormed radix body) :=
  decidable_of_iff (body.any (fun ch => (Text.digitValue radix ch).isSome) ∧
      body.all fun ch => ch == '_' || (Text.digitValue radix ch).isSome)
    (by simp [WellFormed])

theorem split_radix_pos (numeral : List Char) : 0 < (split numeral).1 := by
  unfold split
  repeat' split
  all_goals simp

theorem digitValue_underscore (radix : Nat) : Text.digitValue radix '_' = none := by
  simp [Text.digitValue]

theorem value_nil (radix : Nat) : value radix [] = 0 :=
  rfl

theorem digits_cons_none {radix : Nat} {ch : Char} (other : Text.digitValue radix ch = none) (body : List Char) :
    digits radix (ch :: body) = digits radix body :=
  List.filterMap_cons_none other

theorem digits_cons_some {radix digit : Nat} {ch : Char} (valued : Text.digitValue radix ch = some digit)
    (body : List Char) : digits radix (ch :: body) = digit :: digits radix body :=
  List.filterMap_cons_some valued

/-- The first digit counts as often as the radix to the number of the others. -/
theorem value_cons_some {radix digit : Nat} {ch : Char} (valued : Text.digitValue radix ch = some digit)
    (body : List Char) :
    value radix (ch :: body) = digit * radix ^ (digits radix body).length + value radix body := by
  rw [value, digits_cons_some valued, List.reverse_cons, Nat.ofDigits_append, Nat.ofDigits_singleton,
    List.length_reverse, value, Nat.add_comm, Nat.mul_comm]

theorem value_cons_none {radix : Nat} {ch : Char} (other : Text.digitValue radix ch = none) (body : List Char) :
    value radix (ch :: body) = value radix body := by
  rw [value, digits_cons_none other, value]

theorem wellFormed_iff {radix : Nat} {body : List Char} : WellFormed radix body ↔
    digits radix body ≠ [] ∧ ∀ ch ∈ body, ch = '_' ∨ (Text.digitValue radix ch).isSome = true := by
  have some_digit : (∃ ch ∈ body, (Text.digitValue radix ch).isSome = true) ↔ digits radix body ≠ [] := by
    rw [digits, ne_eq, List.filterMap_eq_nil_iff]
    simp [Option.isSome_iff_ne_none]
  rw [WellFormed, some_digit]

end Numeral

namespace Cursor

open Numeral

theorem fitting_of_gt {n : Nat} (large : maxInt < (n : Int)) : fitting n = none :=
  if_neg (Int.not_le.2 large)

/-- A value that has been given up would not fit again. -/
theorem fitting_digit {radix : Nat} (pos : 0 < radix) (v digit : Nat) :
    ((fitting v).bind fun v => (fitting (v * radix)).bind fun v => fitting (v + digit)) =
      fitting (v * radix + digit) := by
  have grows : v ≤ v * radix := Nat.le_mul_of_pos_right v pos
  rcases Int.lt_or_le maxInt v with large | fits
  · rw [fitting_of_gt large, fitting_of_gt (by omega)]
    rfl
  rw [fitting_of_le fits, Option.bind_some]
  rcases Int.lt_or_le maxInt (v * radix : Nat) with large | fits
  · rw [fitting_of_gt large, fitting_of_gt (by omega)]
    rfl
  · rw [fitting_of_le fits, Option.bind_some]

section

variable {radix : Nat} {n : NumberPrefix} {ch : Char}

theorem push_underscore : n.push radix '_' = n :=
  if_pos rfl

theorem push_digit {digit : Nat} (valued : Text.digitValue radix ch = some digit) : n.push radix ch =
    { n with
      value := n.value.bind fun v => (fitting (v * radix)).bind fun v => fitting (v + digit)
      digits := n.digits + 1 } := by
  have named : ch ≠ '_' := by
    rintro rfl
    rw [digitValue_underscore] at valued
    cases valued
  rw [NumberPrefix.push, if_neg named, valued]

theorem push_other (named : ch ≠ '_') (other : Text.digitValue radix ch = none) :
    n.push radix ch = { n with outOfRadix := true } := by
  rw [NumberPrefix.push, if_neg named, other]

/-- What is known of a number behind a body, from what was known in front of it. -/
theorem foldl_push (pos : 0 < radix) (body : List Char) {start : Nat} (known : n.value = fitting start) :
    (body.foldl (NumberPrefix.push radix) n).value =
        fitting (start * radix ^ (digits radix body).length + value radix body) ∧
      (body.foldl (NumberPrefix.push radix) n).digits = n.digits + (digits radix body).length ∧
      ((body.foldl (NumberPrefix.push radix) n).outOfRadix = true ↔ n.outOfRadix = true ∨
        ∃ ch ∈ body, ¬(ch = '_' ∨ (Text.digitValue radix ch).isSome = true)) := by
  induction body generalizing n start with
  | nil => simp [known, digits, value_nil]
  | cons ch body ih =>
    rw [List.foldl_cons]
    cases valued : Text.digitValue radix ch with
    | some digit =>
      have next : (n.push radix ch).value = fitting (start * radix + digit) := by
        rw [push_digit valued]
        dsimp only
        rw [known, fitting_digit pos]
      obtain ⟨read, count, refused⟩ := ih next
      refine ⟨?_, ?_, ?_⟩
      · rw [read, digits_cons_some valued, value_cons_some valued, List.length_cons, Nat.pow_succ]
        congr 1
        ring
      · rw [count, push_digit valued, digits_cons_some valued, List.length_cons]
        dsimp only
        omega
      · rw [refused, push_digit valued]
        simp [valued]
    | none =>
      rw [digits_cons_none valued, value_cons_none valued]
      by_cases named : ch = '_'
      · subst named
        obtain ⟨read, count, refused⟩ := ih known
        rw [push_underscore]
        exact ⟨read, count, by simpa using refused⟩
      · rw [push_other named valued]
        obtain ⟨read, count, refused⟩ := ih (n := { n with outOfRadix := true }) known
        exact ⟨read, count, by simp [refused, named, valued]⟩

end

variable {numeral rest : List Char}

/-- Either a run names no radix, or it starts with the two characters that do. -/
theorem split_cases (filled : numeral ≠ []) (ends : Ends isNumberChar rest) (position : Nat) :
    split numeral = (10, numeral) ∧ radix? ⟨position, numeral ++ rest⟩ = none ∨
      ∃ mark body, numeral = '0' :: mark :: body ∧ mark.utf8Size = 1 ∧ (split numeral).2 = body ∧
        radix? ⟨position, numeral ++ rest⟩ = some (split numeral).1 := by
  obtain ⟨first, more, rfl⟩ := List.exists_cons_of_ne_nil filled
  by_cases zero : first = '0'
  · subst zero
    cases more with
    | nil =>
      -- What follows the run is no part of it, so that it names no radix either.
      refine .inl ⟨rfl, ?_⟩
      unfold radix?
      simp only [peek, peekSecond, List.singleton_append, List.head?_cons, List.tail_cons]
      cases rest with
      | nil => rfl
      | cons mark rest =>
        have other := ends_cons.1 ends
        have unmarked : ∀ named ∈ ['x', 'X', 'o', 'O', 'b', 'B'], mark ≠ named := by
          rintro named inside rfl
          fin_cases inside <;> exact absurd other (by decide)
        simp only [List.forall_mem_cons] at unmarked
        simp [unmarked]
    | cons mark body =>
      simp only [split, radix?, peek, peekSecond, List.cons_append, List.head?_cons, List.tail_cons]
      split
      · next hex => exact .inr ⟨mark, body, rfl, by rcases hex with rfl | rfl <;> rfl, rfl, rfl⟩
      split
      · next octal => exact .inr ⟨mark, body, rfl, by rcases octal with rfl | rfl <;> rfl, rfl, rfl⟩
      split
      · next binary => exact .inr ⟨mark, body, rfl, by rcases binary with rfl | rfl <;> rfl, rfl, rfl⟩
      · exact .inl ⟨rfl, rfl⟩
  · refine .inl ⟨?_, ?_⟩
    · unfold split
      split
      · next same => exact absurd (List.cons.inj same).1 zero
      · rfl
    · unfold radix?
      split
      · next first' _ =>
        cases first'
        exact absurd rfl zero
      · rfl

/-- What comes of the characters of a number that have been counted. -/
def counted (start : Nat) (n : NumberPrefix) (behind : Cursor) : Scan Lexeme :=
  if n.outOfRadix ∨ n.digits = 0 then behind.refuse start .digitOutOfRadix
  else
    match n.value with
    | some value => behind.lexeme start (.int value)
    | none => behind.refuse start .integerOutOfRange

/-- A run is read as its body in its radix, and its extent is that of the whole run. -/
theorem number_run (filled : numeral ≠ []) (all : ∀ ch ∈ numeral, isNumberChar ch = true)
    (ends : Ends isNumberChar rest) (position : Nat) :
    number ⟨position, numeral ++ rest⟩ =
      counted position ((split numeral).2.foldl (NumberPrefix.push (split numeral).1) ⟨some 0, 0, false⟩)
        ⟨position + byteLength numeral, rest⟩ := by
  unfold number
  rcases split_cases filled ends position with ⟨plain, unnamed⟩ | ⟨mark, body, rfl, size, behind, named⟩
  · rw [unnamed, plain]
    simp only [run_append all ends, skip_append all ends]
    rfl
  · have inside : ∀ ch ∈ body, isNumberChar ch = true := fun ch member => all ch (by simp [member])
    have passed : advance (advance ⟨position, '0' :: mark :: body ++ rest⟩) = ⟨position + 2, body ++ rest⟩ := by
      simp [advance, nextPosition, peek, size]
      rfl
    have extent : position + 2 + byteLength body = position + byteLength ('0' :: mark :: body) := by
      have zero : Char.utf8Size '0' = 1 := rfl
      rw [byteLength_cons, byteLength_cons, zero, size]
      omega
    rw [named, behind]
    simp only [passed, run_append inside ends, skip_append inside ends, extent]
    rfl

end Cursor

namespace Lexer

open Cursor Numeral

variable {l : Lexer} {numeral rest : List Char}

/-- In front of a digit, a number is read. -/
theorem next_digit {first : Char} {more : List Char} (running : l.fresh = false)
    (here : l.cursor.skipBlanks.rest = first :: more) (digit : first.isDigit = true) :
    l.next = ((number ⟨l.cursor.skipBlanks.position, first :: more⟩).1,
      ⟨(number ⟨l.cursor.skipBlanks.position, first :: more⟩).2, false⟩) := by
  obtain ⟨-, -, special⟩ := digit_facts digit
  simp only [List.mem_cons, List.not_mem_nil, or_false, not_or] at special
  obtain ⟨-, newline, quote, apostrophe, -⟩ := special
  have found : l.cursor.skipBlanks = ⟨l.cursor.skipBlanks.position, first :: more⟩ := by rw [← here]
  have reads : lexemeHere ⟨l.cursor.skipBlanks.position, first :: more⟩ =
      number ⟨l.cursor.skipBlanks.position, first :: more⟩ := by
    simp only [lexemeHere, peek, List.head?_cons, if_neg newline, if_neg quote, if_neg apostrophe, digit, if_true]
  rw [← reads, ← found]
  simp only [next, running, Bool.false_eq_true, if_false]

/-- A lexer in front of a run of letters, numbers and `_` that starts with a digit reads all of it as one number. It
refuses the run if its body has no digit or a character that is neither a digit of the radix nor `_`; otherwise it
answers the positional value of the digits if that fits, and refuses the number if it does not. -/
theorem next_number (running : l.fresh = false) (here : l.cursor.skipBlanks.rest = numeral ++ rest)
    (digit : ∃ first ∈ numeral.head?, first.isDigit = true) (all : ∀ ch ∈ numeral, isNumberChar ch = true)
    (ends : Ends isNumberChar rest) :
    let radix := (split numeral).1
    let body := (split numeral).2
    let start := l.cursor.skipBlanks.position
    let stop := start + Cursor.byteLength numeral
    l.next.2 = amid stop rest ∧
      (¬WellFormed radix body → l.next.1 = .error ⟨.digitOutOfRadix, ⟨start, stop⟩⟩) ∧
      (WellFormed radix body → value radix body ≤ 2 ^ 63 - 1 →
        l.next.1 = .ok ⟨.int (value radix body), ⟨start, stop⟩⟩) ∧
      (WellFormed radix body → 2 ^ 63 - 1 < value radix body →
        l.next.1 = .error ⟨.integerOutOfRange, ⟨start, stop⟩⟩) := by
  obtain ⟨first, head, numeric⟩ := digit
  obtain ⟨more, rfl⟩ := List.head?_eq_some_iff.1 head
  have pos := split_radix_pos (first :: more)
  have read := number_run (List.cons_ne_nil first more) all ends l.cursor.skipBlanks.position
  rw [List.cons_append] at here read
  rw [next_digit running here numeric, read, Cursor.counted]
  generalize split (first :: more) = named at pos ⊢
  obtain ⟨radix, body⟩ := named
  dsimp only at pos ⊢
  obtain ⟨known, count, refused⟩ := foldl_push pos body (n := ⟨some 0, 0, false⟩) (fitting_of_le (by decide)).symm
  generalize body.foldl (NumberPrefix.push radix) ⟨some 0, 0, false⟩ = n at known count refused ⊢
  rw [Nat.zero_mul, Nat.zero_add] at known
  -- What the reader has counted says whether the body is well formed.
  have formed : WellFormed radix body ↔ ¬(n.outOfRadix = true ∨ n.digits = 0) := by
    have counted : n.digits = 0 ↔ digits radix body = [] := by simp [count]
    have refuses : n.outOfRadix = true ↔ ¬∀ ch ∈ body, ch = '_' ∨ (Text.digitValue radix ch).isSome = true := by
      rw [refused, not_forall]
      simp
    rw [wellFormed_iff, not_or, refuses, counted, not_not, and_comm]
  have limit : (2 ^ 63 - 1 : Nat) = maxInt := by decide
  refine ⟨?_, fun malformed => ?_, fun wellFormed fits => ?_, fun wellFormed large => ?_⟩
  · split
    · rfl
    · split <;> rfl
  · rw [if_pos (not_not.1 (mt formed.2 malformed))]
    rfl
  · rw [if_neg (formed.1 wellFormed), known, fitting_of_le (by omega)]
    rfl
  · rw [if_neg (formed.1 wellFormed), known, fitting_of_gt (by omega)]
    rfl

/-- The greatest integer in hexadecimal, and the one behind it, each with `_` between its digits. -/
theorem next_number_limits :
    (amid 0 "  0x7fff_ffff_FFFF_ffff+1".toList).next.1 = .ok ⟨.int (2 ^ 63 - 1), ⟨2, 23⟩⟩ ∧
      (amid 0 "009_223372036854775808 ".toList).next.1 = .error ⟨.integerOutOfRange, ⟨0, 22⟩⟩ := by
  have fits := (@next_number (amid 0 "  0x7fff_ffff_FFFF_ffff+1".toList) "0x7fff_ffff_FFFF_ffff".toList ['+', '1'] rfl
    (by decide +kernel) ⟨'0', rfl, by decide⟩ (List.all_eq_true.1 (by decide +kernel)) (ends_cons.2 (by decide))).2.2.1
    (by decide +kernel) (by decide +kernel)
  have large := (@next_number (amid 0 "009_223372036854775808 ".toList) "009_223372036854775808".toList [' '] rfl
    (by decide +kernel) ⟨'0', rfl, by decide⟩ (List.all_eq_true.1 (by decide +kernel)) (ends_cons.2 (by decide))).2.2.2
    (by decide +kernel) (by decide +kernel)
  exact ⟨fits, large⟩

end Lexer

end MixfixLambda
