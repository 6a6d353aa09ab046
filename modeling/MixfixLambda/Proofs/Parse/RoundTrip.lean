import MixfixLambda.Proofs.Parse.Printed

/-!
# Parsing undoes printing

A printed tree, as a whole source, is parsed as the same tree.
-/
namespace MixfixLambda

namespace Lexer

/-- The first line of a text that starts with a token has no indentation. -/
theorem lexemes_ofChars {c : Char} (begins : Tree.Begins c) (more : List Char) :
    ∃ span, (ofChars (c :: more)).lexemes = .ok ⟨.newline 0, span⟩ :: (amid 0 (c :: more)).lexemes := by
  obtain ⟨symbol, blank, newline⟩ := begins
  have dash : c ≠ '-' := by
    rintro rfl
    cases symbol
  simp only [Cursor.isLineBlank, Bool.or_eq_false_iff, beq_eq_false_iff_ne] at blank
  obtain ⟨⟨⟨space, tab⟩, ret⟩, -⟩ := blank
  refine ⟨⟨0, 0⟩, lexemes_of_next ?_ Token.noConfusion⟩
  simp [next, ofChars, Cursor.start, Cursor.indentation, Cursor.indentationFrom, newline, space, ret, tab, dash,
    Cursor.lexeme, amid]

theorem lexemes_end (position : Nat) : ∃ span, (amid position []).lexemes = [.ok ⟨.eof, span⟩] :=
  ⟨⟨position, position⟩, lexemes_of_eof rfl rfl⟩

end Lexer

namespace Parser

/-- The state behind the first line break of a source, which sets its indentation. -/
def begun (origin : Origin) : Parser :=
  { start .default origin with started := true }

theorem shift_first (registry : Registry) (origin : Origin) (span : Span) :
    (start registry origin).shift (.newline 0) span =
      .ok { start registry origin with started := true } :=
  rfl

theorem begun_undeclared (origin : Origin) : (Parser.begun origin).Undeclared := by
  refine ⟨rfl, fun o inside => ?_⟩
  rw [List.mem_singleton.1 inside]
  exact fun _ => Reduction.noConfusion

/-- At the end of a source with one operand this operand is its tree. -/
theorem finish_operand {t : Tree} (plain : t.isComma = false) (origin : Origin) (span : Span) :
    ∃ q, Parser.finish { begun origin with operand := some t } span = .ok (t, q) := by
  let p : Parser := { begun origin with operand := some t }
  have drops : p.dropSeparators = p := dropSeparators_some rfl
  have reduces : p.reduceToOpener = .ok p := reduceToOpener_opener rfl rfl
  have closes : closeBlocks (fun _ => true) span p p.layout = .ok p := rfl
  refine ⟨{ p with operand := none, pending := [] }, ?_⟩
  change p.finish span = _
  simp only [finish, closes, drops, reduces, bind, Except.bind]
  cases t <;> first
    | rfl
    | cases plain

end Parser

/-- A legible tree of the default grammar is what its printed text is parsed as. -/
theorem Tree.Standard.parse_render {t : Tree} (standard : t.Standard) (legible : t.isLegible = true)
    (origin : Origin) :
    ∃ t', parse t.render origin = .ok t' ∧ t'.unlocated = t.unlocated := by
  obtain ⟨c, more, shown, begins⟩ := standard.begins
  obtain ⟨span, first⟩ := Lexer.lexemes_ofChars begins more
  have u := Parser.begun_undeclared origin
  obtain ⟨q, after, took, run⟩ := standard.reads legible (Parser.begun origin) [] (Parser.accepts_of_none rfl u) u
    Cursor.ends_nil 0
  obtain ⟨t', same, rfl⟩ := took.of_none rfl
  obtain ⟨place, last⟩ := Lexer.lexemes_end after
  have plain : t'.isComma = false := by
    rw [← Tree.isComma_unlocated, same, Tree.isComma_unlocated, standard.isComma_eq_false]
  obtain ⟨behind, finished⟩ := Parser.finish_operand plain origin place
  have ran : (Parser.start .default origin).run (lexemes t.render) = .ok (t', behind) := by
    have enters : (Parser.start .default origin).run (lexemes t.render) =
        (Parser.begun origin).run (Lexer.amid 0 (c :: more)).lexemes := by
      have line : Token.newline 0 ≠ .eof := Token.noConfusion
      rw [lexemes, Lexer.ofString, shown, first,
        Parser.run_ok line (Parser.shift_first .default origin span), Parser.begun]
    rw [enters, ← shown, ← List.append_nil t.render.toList, run, last]
    exact finished
  exact ⟨t', by rw [parse, parseUnder, ran], same⟩

end MixfixLambda
