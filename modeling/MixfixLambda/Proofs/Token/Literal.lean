import MixfixLambda.Proofs.Token.Spelling

/-!
# How literals are spelled

The printed digits of an integer are read as that integer, and the printed bytes of a string and the
printed character between its quotes as they were, each escape included.
-/
namespace MixfixLambda

namespace Cursor

variable {rest : List Char}

theorem digit_facts_of_low : ∀ c : Char, c.toNat < 0x80 → c.isDigit →
    isNumberChar c ∧ isLineBlank c = false ∧
      c ∉ ['-', '\n', '\x22', '\x27', 'x', 'X', 'o', 'O', 'b', 'B'] := by
  refine forall_low ?_
  decide

theorem digit_facts {c : Char} (digit : c.isDigit) :
    isNumberChar c ∧ isLineBlank c = false ∧
      c ∉ ['-', '\n', '\x22', '\x27', 'x', 'X', 'o', 'O', 'b', 'B'] :=
  digit_facts_of_low c (isDigit_low digit) digit

theorem digitValue_digitChar : ∀ d < 10, Text.digitValue 10 d.digitChar = some d ∧ d.digitChar ≠ '_' := by
  decide

theorem fitting_of_le {n : Nat} (fits : (n : Int) ≤ maxInt) : fitting n = some n :=
  if_pos fits

/-- The digits of a number read as this number. -/
theorem foldl_toDigits {n : Nat} (fits : (n : Int) ≤ maxInt) :
    (Nat.toDigits 10 n).foldl (NumberPrefix.push 10) ⟨some 0, 0, false⟩ =
      ⟨some n, (Nat.toDigits 10 n).length, false⟩ := by
  induction n using Nat.strong_induction_on with
  | _ n ih =>
    by_cases small : n < 10
    · obtain ⟨value, underscore⟩ := digitValue_digitChar n small
      rw [Nat.toDigits_of_lt_base small]
      simp [NumberPrefix.push, value, underscore, fitting_of_le fits, fitting_of_le (n := 0) (by decide)]
    · have step : n / 10 * 10 + n % 10 = n := by omega
      have tens : fitting (n / 10 * 10) = some (n / 10 * 10) := fitting_of_le (by omega)
      obtain ⟨value, underscore⟩ := digitValue_digitChar (n % 10) (Nat.mod_lt n (by decide))
      rw [Nat.toDigits_of_base_le (by decide) (Nat.le_of_not_lt small), List.foldl_append,
        ih (n / 10) (by omega) (by omega)]
      simp [NumberPrefix.push, value, underscore, tens, step, fitting_of_le fits]

theorem radix?_digits {c : Char} {more : List Char} (position : Nat)
    (digits : ∀ d ∈ more, d.isDigit = true) (ends : Ends isNumberChar rest) :
    radix? ⟨position, c :: (more ++ rest)⟩ = none := by
  have second : ∀ d ∈ (more ++ rest).head?, d ∉ ['x', 'X', 'o', 'O', 'b', 'B'] := by
    intro d found
    cases more with
    | nil =>
      intro mark
      have other := ends d found
      fin_cases mark <;> exact absurd other (by decide)
    | cons e more =>
      cases found
      intro mark
      exact (digit_facts (digits _ (List.mem_cons_self ..))).2.2
        (List.mem_append_right ['-', '\n', '\x22', '\x27'] mark)
  unfold radix?
  simp only [peek, peekSecond, List.head?_cons, List.tail_cons]
  split
  · next d first found =>
    have other := second d found
    simp only [List.mem_cons, List.not_mem_nil, or_false, not_or] at other
    obtain ⟨x, X, o, O, b, B⟩ := other
    simp [x, X, o, O, b, B]
  · rfl

theorem spells_int {n : Nat} (fits : (n : Int) ≤ maxInt) (ends : Ends isNumberChar rest) :
    Spells (toString (n : Int)).toList rest (.int n) := by
  have shown : (toString (n : Int)).toList = Nat.toDigits 10 n := Nat.toList_repr
  have digits : ∀ d ∈ Nat.toDigits 10 n, d.isDigit = true :=
    fun d inside => Nat.isDigit_of_mem_toDigits (by decide) (by decide) inside
  rw [shown]
  have value := foldl_toDigits fits
  cases written : Nat.toDigits 10 n with
  | nil => exact absurd written Nat.toDigits_ne_nil
  | cons c more =>
    rw [written] at digits value
    obtain ⟨numeric, blank, special⟩ := digit_facts (digits c (List.mem_cons_self ..))
    simp only [List.mem_cons, List.not_mem_nil, or_false, not_or] at special
    obtain ⟨dash, newline, quote, apostrophe, -⟩ := special
    refine spells_of_lexemeHere (c := c) Token.noConfusion rfl blank (absurd · dash) fun position => ?_
    have all : ∀ d ∈ c :: more, isNumberChar d = true := fun d inside => (digit_facts (digits d inside)).1
    have read : run isNumberChar ⟨position, c :: more ++ rest⟩ = c :: more := run_append all ends position
    have here : lexemeHere ⟨position, c :: more ++ rest⟩ =
        lexeme ⟨position + byteLength (c :: more), rest⟩ position (.int n) := by
      simp only [List.cons_append, lexemeHere, peek, List.head?_cons, if_neg newline, if_neg quote,
        if_neg apostrophe, digits c (List.mem_cons_self ..), if_true]
      rw [number, radix?_digits position (fun d inside => digits d (List.mem_cons_of_mem _ inside)) ends]
      simp only
      rw [← List.cons_append, read, value, skip_append all ends]
      simp
    exact ⟨_, _, here⟩

/-- What stands behind a backslash is read as one byte. -/
def Escapes (tail : List Char) (byte : UInt8) : Prop :=
  ∀ position more, ∃ after, escape ⟨position, '\\' :: (tail ++ more)⟩ = (.ok byte, ⟨after, more⟩)

theorem digitValue_hexDigit : ∀ d < 16, Text.digitValue 16 (Text.hexDigit d) = some d := by
  decide

theorem escapes_hexByte (b : UInt8) : Escapes ('x' :: (Text.hexByte b).toList) b := by
  intro position more
  have below : b.toNat < 256 := b.toNat_lt
  have high := digitValue_hexDigit (b.toNat / 16) (by omega)
  have low := digitValue_hexDigit (b.toNat % 16) (by omega)
  have value : UInt8.ofNat (b.toNat / 16 * 16 + b.toNat % 16) = b := by
    rw [show b.toNat / 16 * 16 + b.toNat % 16 = b.toNat by omega]
    exact UInt8.ofNat_toNat
  rw [Text.hexByte, String.toList_ofList]
  simp only [escape, advance, pop, peek, List.cons_append, List.nil_append, List.tail_cons,
    List.head?_cons, Option.bind_some, high, low, value]
  exact ⟨_, rfl⟩

/-- An escape of one letter. -/
theorem escapes_letter {letter : Char} {byte : UInt8} (named : escapedByte letter = some byte) :
    Escapes [letter] byte := by
  intro position more
  have hex : letter ≠ 'x' := by
    rintro rfl
    cases named
  refine ⟨(advance (advance ⟨position, '\\' :: letter :: more⟩)).position, ?_⟩
  simp only [escape, advance, pop, peek, List.singleton_append, List.tail_cons, List.head?_cons, named]

/-- A character inside quotes is an escape of one byte, or stands for itself. -/
theorem sourceChar_cases {quote : Char} (quotes : quote = '\x22' ∨ quote = '\x27') (c : Char) :
    (∃ tail byte, (sourceChar quote c).toList = '\\' :: tail ∧ Escapes tail byte ∧
      byte.toNat = c.toNat) ∨
    (sourceChar quote c).toList = [c] ∧ c ≠ '\n' ∧ c ≠ '\\' ∧ c ≠ quote := by
  unfold sourceChar
  split
  · next newline => subst newline; exact .inl ⟨['n'], 0x0a, rfl, escapes_letter rfl, rfl⟩
  next newline =>
  split
  · next tab => subst tab; exact .inl ⟨['t'], 0x09, rfl, escapes_letter rfl, rfl⟩
  split
  · next ret => subst ret; exact .inl ⟨['r'], 0x0d, rfl, escapes_letter rfl, rfl⟩
  split
  · next zero => subst zero; exact .inl ⟨['0'], 0x00, rfl, escapes_letter rfl, rfl⟩
  split
  · next slash => subst slash; exact .inl ⟨['\\'], 0x5c, rfl, escapes_letter rfl, rfl⟩
  next slash =>
  split
  · next quoted =>
    subst quoted
    rcases quotes with rfl | rfl
    · exact .inl ⟨['\x22'], 0x22, rfl, escapes_letter rfl, rfl⟩
    · exact .inl ⟨['\x27'], 0x27, rfl, escapes_letter rfl, rfl⟩
  next quoted =>
  split
  · next control =>
    rw [Bool.and_eq_true, decide_eq_true_eq] at control
    refine .inl ⟨_, UInt8.ofNat c.toNat, ?_, escapes_hexByte _, ?_⟩
    · rw [String.toList_append]
      rfl
    · rw [UInt8.toNat_ofNat']
      exact Nat.mod_eq_of_lt control.2
  · exact .inr ⟨String.toList_singleton c, newline, slash, quoted⟩

theorem toNat_ofNat_low : ∀ n < 0x80, (Char.ofNat n).toNat = n := by
  decide

/-- A character of ASCII is encoded by its own byte. -/
theorem utf8EncodeChar_low {b : UInt8} (low : b.toNat < 0x80) : String.utf8EncodeChar (Char.ofNat b.toNat) = [b] := by
  have small : (Char.ofNat b.toNat).val.toNat = b.toNat := toNat_ofNat_low b.toNat low
  unfold String.utf8EncodeChar
  simp only [small, if_pos (show b.toNat ≤ 127 by omega), UInt8.ofNat_toNat]

/-- A text stands for a byte between double quotes: it is an escape, or the character of which the byte is the
encoding. -/
def WritesByte (text : List Char) (b : UInt8) : Prop :=
  (∃ tail, text = '\\' :: tail ∧ Escapes tail b) ∨
    ∃ c, text = [c] ∧ c ≠ '\n' ∧ c ≠ '\\' ∧ c ≠ '\x22' ∧ String.utf8EncodeChar c = [b]

theorem sourceByte_writes (b : UInt8) : WritesByte (sourceByte b).toList b := by
  unfold sourceByte
  split
  · next low =>
    have below : b.toNat < 0x80 := low
    have value := toNat_ofNat_low b.toNat below
    rcases sourceChar_cases (.inl rfl) (Char.ofNat b.toNat) with
      ⟨tail, byte, shown, escapes, same⟩ | ⟨shown, newline, slash, quote⟩
    · rw [value, UInt8.toNat_inj] at same
      exact .inl ⟨tail, shown, same ▸ escapes⟩
    · exact .inr ⟨_, shown, newline, slash, quote, utf8EncodeChar_low below⟩
  · exact .inl ⟨_, by rw [String.toList_append]; rfl, escapes_hexByte b⟩

theorem stringFrom_escape {start position : Nat} {bytes : List UInt8} {byte : UInt8}
    {more : List Char} {behind : Cursor}
    (read : escape ⟨position, '\\' :: more⟩ = (.ok byte, behind)) :
    stringFrom start bytes ⟨position, '\\' :: more⟩ = stringFrom start (byte :: bytes) behind := by
  rw [stringFrom]
  simp only [if_neg (show '\\' ≠ '\n' by decide), if_neg (show '\\' ≠ '\x22' by decide), if_true]
  split
  · next found =>
    rw [read] at found
    cases found
    rfl
  · next found =>
    rw [read] at found
    cases found

theorem WritesByte.stringFrom {text : List Char} {b : UInt8} (writes : WritesByte text b) (start position : Nat)
    (bytes : List UInt8) (more : List Char) :
    ∃ after, Cursor.stringFrom start bytes ⟨position, text ++ more⟩ =
      Cursor.stringFrom start (b :: bytes) ⟨after, more⟩ := by
  rcases writes with ⟨tail, rfl, escapes⟩ | ⟨c, rfl, newline, slash, quote, code⟩
  · obtain ⟨after, read⟩ := escapes position more
    exact ⟨after, stringFrom_escape read⟩
  · refine ⟨nextPosition ⟨position, c :: more⟩, ?_⟩
    rw [Cursor.stringFrom]
    simp [newline, slash, quote, code, advance]

/-- Bytes that are written one after the other are read up to the closing quote. -/
theorem stringFrom_written {spell : UInt8 → String} (writes : ∀ b, WritesByte (spell b).toList b)
    (start position : Nat) (read bytes : List UInt8) (rest : List Char) :
    ∃ after span, stringFrom start read ⟨position, bytes.flatMap (fun b => (spell b).toList) ++
        '\x22' :: rest⟩ = (.ok ⟨.str (read.reverse ++ bytes), span⟩, ⟨after, rest⟩) := by
  induction bytes generalizing position read with
  | nil =>
    rw [List.flatMap_nil, List.nil_append, stringFrom]
    simp [advance, lexeme]
  | cons b bytes ih =>
    obtain ⟨next, step⟩ := (writes b).stringFrom start position read
      (bytes.flatMap (fun b => (spell b).toList) ++ '\x22' :: rest)
    obtain ⟨after, span, end_⟩ := ih next (b :: read)
    refine ⟨after, span, ?_⟩
    rw [List.flatMap_cons, List.append_assoc, step, end_]
    simp

/-- A string between its quotes. -/
def quotedBytes (spell : UInt8 → String) (bytes : List UInt8) : String :=
  "\"" ++ String.join (bytes.map spell) ++ "\""

theorem toList_quotedBytes (spell : UInt8 → String) (bytes : List UInt8) : (quotedBytes spell bytes).toList =
    '\x22' :: (bytes.flatMap (fun b => (spell b).toList) ++ ['\x22']) := by
  simp [quotedBytes, String.toList_append, String.toList_join, List.flatMap_map]

theorem lexemeHere_quotedBytes {spell : UInt8 → String} (writes : ∀ b, WritesByte (spell b).toList b)
    (bytes : List UInt8) (rest : List Char) (position : Nat) :
    ∃ span after, lexemeHere ⟨position, (quotedBytes spell bytes).toList ++ rest⟩ =
      (.ok ⟨.str bytes, span⟩, ⟨after, rest⟩) := by
  obtain ⟨after, span, read⟩ := stringFrom_written writes position (position + 1) [] bytes rest
  refine ⟨span, after, ?_⟩
  rw [toList_quotedBytes, List.cons_append, List.append_assoc]
  exact read

theorem spells_str (bytes : List UInt8) (rest : List Char) :
    Spells ("\"" ++ String.join (bytes.map sourceByte) ++ "\"").toList rest (.str bytes) :=
  have spelled : Spells (quotedBytes sourceByte bytes).toList rest (.str bytes) :=
    spells_of_lexemeHere (c := '\x22') Token.noConfusion (by rw [toList_quotedBytes]; rfl) (by decide)
      (fun dash => absurd dash (by decide)) (lexemeHere_quotedBytes sourceByte_writes bytes rest)
  spelled

@[simp]
theorem nextPosition_cons (c : Char) (position : Nat) (tail : List Char) :
    nextPosition ⟨position, c :: tail⟩ = position + c.utf8Size :=
  rfl

theorem toList_quotedChar (c : Char) : ("'" ++ sourceChar '\x27' c ++ "'").toList =
    '\x27' :: ((sourceChar '\x27' c).toList ++ ['\x27']) := by
  simp [String.toList_append]

theorem lexemeHere_quotedChar (c : Char) (rest : List Char) (position : Nat) :
    ∃ span after, lexemeHere ⟨position, ("'" ++ sourceChar '\x27' c ++ "'").toList ++ rest⟩ =
      (.ok ⟨.char c, span⟩, ⟨after, rest⟩) := by
  rw [toList_quotedChar, List.cons_append, List.append_assoc, List.singleton_append]
  have here : ∀ tail, lexemeHere ⟨position, '\x27' :: tail⟩ = charLiteral ⟨position, '\x27' :: tail⟩ :=
    fun _ => rfl
  have one : Char.utf8Size '\x27' = 1 := rfl
  rw [here]
  rcases sourceChar_cases (.inr rfl) c with
    ⟨tail, byte, spelled, escapes, same⟩ | ⟨spelled, newline, slash, quote⟩
  · obtain ⟨after, read⟩ := escapes (position + 1) ('\x27' :: rest)
    have value : Char.ofNat byte.toNat = c := by
      rw [same, Char.ofNat_toNat]
    refine ⟨⟨position, after + 1⟩, after + 1, ?_⟩
    rw [spelled]
    simp [charLiteral, advance, peek, one, read, value, lexeme]
  · refine ⟨⟨position, position + 1 + c.utf8Size + 1⟩, position + 1 + c.utf8Size + 1, ?_⟩
    rw [spelled]
    simp [charLiteral, advance, peek, one, lexeme]

theorem spells_char (c : Char) (rest : List Char) :
    Spells ("'" ++ sourceChar '\x27' c ++ "'").toList rest (.char c) :=
  spells_of_lexemeHere (c := '\x27') Token.noConfusion (by rw [toList_quotedChar]; rfl) (by decide)
    (fun dash => absurd dash (by decide)) (lexemeHere_quotedChar c rest)

end Cursor

end MixfixLambda
