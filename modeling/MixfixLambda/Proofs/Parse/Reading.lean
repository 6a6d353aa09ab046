import MixfixLambda.Parse.Parser
import MixfixLambda.Proofs.Success
import MixfixLambda.Proofs.Syntax.Default
import MixfixLambda.Proofs.Token.Spelling

/-!
# Reading a text piece by piece

What the parser does with a text is put together from what it does with the pieces of the text: each piece
is taken in front of the rest, and only the state that it leads to matters for what comes next.
-/
namespace MixfixLambda

namespace Parser

/-- Taking the tokens of a text, where a rest follows, brings the parser into one of these states. -/
def Takes (p : Parser) (text rest : List Char) (Q : Parser → Prop) : Prop :=
  ∀ position, ∃ q after, Q q ∧
    p.run (Lexer.amid position (text ++ rest)).lexemes = q.run (Lexer.amid after rest).lexemes

variable {p : Parser} {text more rest : List Char} {Q R : Parser → Prop}

theorem Takes.append (first : p.Takes text (more ++ rest) Q)
    (second : ∀ q, Q q → q.Takes more rest R) : p.Takes (text ++ more) rest R := by
  intro position
  obtain ⟨q, after, reached, run⟩ := first position
  obtain ⟨r, behind, then_, goes⟩ := second q reached after
  refine ⟨r, behind, then_, ?_⟩
  rw [List.append_assoc, run, goes]

theorem Takes.mono (taken : p.Takes text rest Q) (weaker : ∀ q, Q q → R q) : p.Takes text rest R := by
  intro position
  obtain ⟨q, after, reached, run⟩ := taken position
  exact ⟨q, after, weaker q reached, run⟩

theorem takes_space (here : Q p) : p.Takes [' '] rest Q := by
  intro position
  exact ⟨p, position + 1, here, by rw [List.singleton_append, Lexer.lexemes_space]⟩

theorem run_ok {token : Token} {span : Span} {q : Parser} (more : token ≠ .eof)
    (shift : p.shift token span = .ok q) (xs : List (Except LexicalError Lexeme)) :
    p.run (.ok ⟨token, span⟩ :: xs) = q.run xs := by
  cases token with
  | eof => exact absurd rfl more
  | _ => simp only [run, shift]

theorem run_error {token : Token} {span : Span} {refusal : Refusal} (more : token ≠ .eof)
    (shift : p.shift token span = .error refusal) (xs : List (Except LexicalError Lexeme)) :
    p.run (.ok ⟨token, span⟩ :: xs) = .error refusal := by
  cases token with
  | eof => exact absurd rfl more
  | _ => simp only [run, shift]

theorem run_cons {x : Lexeme} {stream : List (Except LexicalError Lexeme)} {result : Tree × Parser}
    (more : x.token ≠ .eof) (ok : p.run (.ok x :: stream) = .ok result) :
    ∃ q, p.shift x.token x.span = .ok q ∧ q.run stream = .ok result := by
  cases shifted : p.shift x.token x.span with
  | error refusal =>
    rw [run_error more shifted] at ok
    cases ok
  | ok q => exact ⟨q, rfl, (run_ok more shifted stream).symm.trans ok⟩

theorem takes_token {token : Token} (spelled : Spells text rest token) (more : token ≠ .eof)
    (shift : ∀ span, ∃ q, p.shift token span = .ok q ∧ Q q) : p.Takes text rest Q := by
  intro position
  obtain ⟨span, after, read⟩ := spelled position
  obtain ⟨q, shifted, reached⟩ := shift span
  exact ⟨q, after, reached, by rw [read, run_ok more shifted]⟩

theorem takes_word {symbol : String} (spelled : SpellsWord symbol.toList rest)
    (shift : ∀ span, ∃ q, p.shiftSymbol symbol span = .ok q ∧ Q q) :
    p.Takes symbol.toList rest Q := by
  obtain ⟨token, named, read⟩ := spelled
  rw [String.ofList_toList] at named
  cases token with
  | name text | operator text =>
    cases named
    exact takes_token read Token.noConfusion shift
  | _ => cases named

/-- Only the rules of the default grammar are in force, and no declaration is being read. -/
structure Undeclared (p : Parser) : Prop where
  rules : p.registry.entries = Registry.default.entries
  words : ∀ o ∈ p.pending, ∀ kind, o.rule.reduction ≠ .declare kind

namespace Undeclared

theorem lookup (u : p.Undeclared) (symbol : String) :
    p.registry.lookup symbol = Registry.default.lookup symbol :=
  Registry.lookup_congr u.rules symbol

theorem isDeclared (u : p.Undeclared) (rule : Rule) : p.isDeclared rule = false := by
  unfold Parser.isDeclared
  split
  · rfl
  · split
    · next top found =>
      split
      · next kind declares =>
        exact absurd declares (u.words top (List.mem_of_find?_eq_some found) kind)
      · rfl
    · rfl

theorem shiftOperator (u : p.Undeclared) {rule : Rule} (listed : rule ∈ defaultRules) (span : Span) :
    p.shiftSymbol rule.symbol span = p.shiftOperator rule (p.tag rule.symbol span) := by
  have ruled : ∀ rule ∈ defaultRules, rule.isOperand = false := by decide +kernel
  rw [shiftSymbol, u.lookup, Registry.default_lookup listed, u.isDeclared, ruled rule listed]
  rfl

theorem shiftName (u : p.Undeclared) {symbol : String}
    (unruled : Registry.default.lookup symbol = Rule.operand symbol) (span : Span) :
    p.shiftSymbol symbol span = p.shiftOperand (.name (p.tag symbol span)) := by
  rw [shiftSymbol, u.lookup, unruled]
  rfl

/-- Brackets leave the scope as it was. -/
theorem popScope (u : p.Undeclared) : p.registry.pushScope.popScope = p.registry := by
  refine Registry.popScope_pushScope fun e inside => ?_
  rw [u.rules] at inside
  rw [(Registry.mem_default_entries inside).1]
  exact Nat.zero_le _

end Undeclared

end Parser

end MixfixLambda
