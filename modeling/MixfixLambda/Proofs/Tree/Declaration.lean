import MixfixLambda.Proofs.Parse.Declaration
import MixfixLambda.Proofs.Tree.Congruence

/-!
# Declarations, wherever they stand

A declaration keyword reads its operand word by word and looks at no place, so that operands that say the same make
declarations that say the same, and these have the same rules.
-/
namespace MixfixLambda

theorem Tree.spine_unlocated (t : Tree) :
    t.unlocated.spine = (t.spine.1.unlocated, t.spine.2.map Tree.unlocated) := by
  have general : ∀ (t : Tree) (arguments : List Tree), spine.go t.unlocated (arguments.map unlocated) =
      ((spine.go t arguments).1.unlocated, (spine.go t arguments).2.map unlocated) := by
    intro t arguments
    fun_induction spine.go t arguments with
    | case1 arguments function argument span ih => simpa only [unlocated, spine.go, List.map_cons] using ih
    | case2 t arguments other =>
      cases t with
      | apply function argument span => exact (other function argument span rfl).elim
      | _ => rfl
  exact general t []

namespace Declaration

variable {kind : DeclarationKind} {d d' : Declaration} {operand operand' : Tree}

theorem takePrecedence_unlocated (words : List Tree) : takePrecedence (words.map Tree.unlocated) =
    (takePrecedence words).map fun (n, rest) => (n, rest.map Tree.unlocated) := by
  cases words with
  | nil => rfl
  | cons word words =>
    cases word with
    | int value span =>
      simp only [List.map_cons, Tree.unlocated, takePrecedence]
      split <;> rfl
    | _ => rfl

theorem takeSymbols_unlocated (chains : Bool) (words : List Tree) : takeSymbols chains (words.map Tree.unlocated) =
    (takeSymbols chains words).map fun (symbols, prior) =>
      (symbols.map Tag.unlocated, prior.map Tag.unlocated) := by
  fun_induction takeSymbols chains words with
  | case1 => rfl
  | case2 tag chain prior =>
    rw [List.map_cons, Tree.unlocated, takeSymbols.eq_def]
    exact if_pos chain
  | case3 tag words chain other =>
    rw [List.map_cons, Tree.unlocated, takeSymbols.eq_def]
    refine (if_pos chain).trans ?_
    split
    · next prior single =>
      obtain ⟨word, rfl, named⟩ := List.map_eq_singleton_iff.1 single
      cases word with
      | name tag => exact (other tag rfl).elim
      | _ => cases named
    · rfl
  | case4 tag words plain ih =>
    simp only [List.map_cons, Tree.unlocated, takeSymbols, Tag.unlocated_text, if_neg plain, ih]
    cases takeSymbols chains words <;> rfl
  | case5 words some other =>
    cases words with
    | nil => exact (some rfl).elim
    | cons word words =>
      cases word with
      | name tag => exact (other tag words rfl).elim
      | _ => rfl

theorem ofWords_unlocated (kind : DeclarationKind) (span : Span) (words : List Tree) :
    ofWords kind Span.origin (words.map Tree.unlocated) = (ofWords kind span words).map Declaration.unlocated := by
  have behind : ∀ (precedence : Option Nat) (words : List Tree), (do
        let (symbols, prior) ← takeSymbols (!(kind == DeclarationKind.bracket)) (words.map Tree.unlocated)
        if symbols.isEmpty then throw DeclarationFault.noSymbol
        if (kind == DeclarationKind.bracket) && symbols.length != 2 then throw DeclarationFault.noPair
        return (⟨kind, precedence, symbols, prior, Span.origin⟩ : Declaration)) = (do
        let (symbols, prior) ← takeSymbols (!(kind == DeclarationKind.bracket)) words
        if symbols.isEmpty then throw DeclarationFault.noSymbol
        if (kind == DeclarationKind.bracket) && symbols.length != 2 then throw DeclarationFault.noPair
        return (⟨kind, precedence, symbols, prior, span⟩ : Declaration)).map Declaration.unlocated := by
    intro precedence words
    rw [takeSymbols_unlocated]
    cases takeSymbols (!(kind == .bracket)) words with
    | error fault => rfl
    | ok read =>
      obtain ⟨symbols, prior⟩ := read
      simp only [Except.map, bind, Except.bind, List.isEmpty_map, List.length_map]
      split
      · rfl
      · split <;> rfl
  unfold ofWords
  dsimp only
  split
  · exact behind none words
  · rw [takePrecedence_unlocated]
    cases takePrecedence words with
    | error fault => rfl
    | ok read => exact behind (some read.1) read.2

/-- Operands that say the same make declarations that say the same. -/
theorem ofOperand_congr {keyword : Tag} (same : operand'.unlocated = operand.unlocated)
    (ok : ofOperand kind keyword operand = .ok d) (keyword' : Tag) :
    ∃ d', ofOperand kind keyword' operand' = .ok d' ∧ d'.unlocated = d.unlocated := by
  have words : (operand'.spine.1 :: operand'.spine.2).map Tree.unlocated =
      (operand.spine.1 :: operand.spine.2).map Tree.unlocated := by
    have spines := congrArg Tree.spine same
    rw [Tree.spine_unlocated, Tree.spine_unlocated, Prod.mk.injEq] at spines
    rw [List.map_cons, List.map_cons, spines.1, spines.2]
  unfold ofOperand at ok ⊢
  dsimp only at ok ⊢
  generalize keyword.span.merge operand.span = span at ok
  generalize keyword'.span.merge operand'.span = span'
  have there := ofWords_unlocated kind span' (operand'.spine.1 :: operand'.spine.2)
  rw [words, ofWords_unlocated kind span] at there
  split at ok
  · next read =>
    cases ok
    rw [read] at there
    cases read' : ofWords kind span' (operand'.spine.1 :: operand'.spine.2) with
    | error fault =>
      rw [read'] at there
      cases there
    | ok d' =>
      rw [read'] at there
      exact ⟨d', rfl, (Except.ok.inj there).symm⟩
  · cases ok

theorem ruleOf_unlocated (d : Declaration) (symbol : String) : d.unlocated.ruleOf symbol = d.ruleOf symbol := by
  obtain ⟨kind, precedence, symbols, prior, span⟩ := d
  cases prior <;> rfl

theorem rules_unlocated (d : Declaration) : d.unlocated.rules.map Prod.snd = d.rules.map Prod.snd := by
  have each : ∀ symbols : List Tag,
      ((symbols.map Tag.unlocated).map fun symbol => (symbol, d.unlocated.ruleOf symbol.text)).map Prod.snd =
        (symbols.map fun symbol => (symbol, d.ruleOf symbol.text)).map Prod.snd := by
    intro symbols
    simp [Function.comp_def, ruleOf_unlocated]
  obtain ⟨kind, precedence, symbols, prior, span⟩ := d
  cases kind with
  | bracket =>
    match symbols with
    | [] | [_] | [_, _] | _ :: _ :: _ :: _ => rfl
  | _ => exact each symbols

theorem rules_congr (same : d'.unlocated = d.unlocated) : d'.rules.map Prod.snd = d.rules.map Prod.snd := by
  rw [← rules_unlocated, same, rules_unlocated]

end Declaration

end MixfixLambda
