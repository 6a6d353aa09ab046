import MixfixLambda.Text.CharRange

/-!
# White space and control characters

The characters of the Unicode property *White_Space* and those of the category *Cc*.
-/
namespace MixfixLambda.Text

/-- The white space characters. -/
def blankRanges : CharRanges :=
  [
    (0x9, 0xd), (0x20, 0x20), (0x85, 0x85), (0xa0, 0xa0), (0x1680, 0x1680), (0x2000, 0x200a),
    (0x2028, 0x2029), (0x202f, 0x202f), (0x205f, 0x205f), (0x3000, 0x3000)
  ]

/-- White space of any kind, line breaks included. -/
def isBlank (c : Char) : Bool :=
  blankRanges.contains c

/-- The control characters: the two blocks of thirty-two and the delete character. -/
def isControl (c : Char) : Bool :=
  c.toNat < 0x20 || (0x7f ≤ c.toNat && c.toNat < 0xa0)

theorem isBlank_of_isWhitespace {c : Char} (h : c.isWhitespace = true) : isBlank c = true := by
  simp only [Char.isWhitespace, Bool.or_eq_true, decide_eq_true_eq] at h
  rcases h with ((rfl | rfl) | rfl) | rfl <;> decide

end MixfixLambda.Text
