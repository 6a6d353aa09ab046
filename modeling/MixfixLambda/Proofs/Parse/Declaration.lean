import MixfixLambda.Proofs.Parse.Reading
import MixfixLambda.Proofs.Tree.Parts

/-!
# What declarations are made of

The operand of an accepted declaration consists of words, so that nothing but names and a precedence is
given up for it, and what it registers are rules for these names, in the innermost scope.
-/
namespace MixfixLambda

namespace Tree

/-- A name or a number, as the operand of a declaration is made of. -/
def IsBare (t : Tree) : Prop :=
  (∃ value span, t = .int value span) ∨ ∃ tag, t = .name tag

theorem IsBare.isLeaf {t : Tree} (word : t.IsBare) : t.isLeaf = true := by
  rcases word with ⟨_, _, rfl⟩ | ⟨_, rfl⟩ <;> rfl

theorem part_spine {x : Tree} (leaf : x.isLeaf = true) (t : Tree) :
    Part x t ↔ ∃ word ∈ t.spine.1 :: t.spine.2, Part x word := by
  have general : ∀ (t : Tree) (arguments : List Tree),
      (∃ word ∈ (spine.go t arguments).1 :: (spine.go t arguments).2, Part x word) ↔
        Part x t ∨ ∃ word ∈ arguments, Part x word := by
    intro t arguments
    fun_induction spine.go t arguments with
    | case1 arguments function argument span ih =>
      rw [ih]
      simp [part_node leaf, isLeaf, children, or_assoc]
    | case2 => simp
  rw [spine, general]
  simp

end Tree

namespace Declaration

variable {kind : DeclarationKind} {d : Declaration}

theorem takeSymbols_ok {chains : Bool} {words : List Tree} {symbols : List Tag} {prior : Option Tag}
    (ok : takeSymbols chains words = .ok (symbols, prior)) :
    (∀ word ∈ words, word.IsBare) ∧ ∀ symbol ∈ symbols, .name symbol ∈ words := by
  fun_induction takeSymbols chains words generalizing symbols prior with
  | case1 =>
    cases ok
    simp
  | case2 tag continues after =>
    cases ok
    simp [Tree.IsBare]
  | case4 tag words plain ih =>
    cases taken : takeSymbols chains words with
    | error fault =>
      rw [taken] at ok
      cases ok
    | ok result =>
      rw [taken] at ok
      cases ok
      obtain ⟨each, named⟩ := ih taken
      refine ⟨List.forall_mem_cons.2 ⟨.inr ⟨tag, rfl⟩, each⟩, fun symbol inside => ?_⟩
      rcases List.mem_cons.1 inside with rfl | inside
      · exact List.mem_cons_self ..
      · exact List.mem_cons_of_mem _ (named symbol inside)
  | _ => cases ok

theorem takePrecedence_ok {words rest : List Tree} {n : Nat} (ok : takePrecedence words = .ok (n, rest)) :
    ∃ value span, words = .int value span :: rest := by
  unfold takePrecedence at ok
  split at ok
  · next value span words =>
    split at ok
    · cases ok
      exact ⟨value, span, rfl⟩
    · cases ok
  · cases ok

/-- What is read behind the precedence. -/
theorem ofSymbols_ok {span : Span} {precedence : Option Nat} {rest : List Tree} (ok : (do
      let (symbols, prior) ← takeSymbols (!(kind == DeclarationKind.bracket)) rest
      if symbols.isEmpty then throw DeclarationFault.noSymbol
      if (kind == DeclarationKind.bracket) && symbols.length != 2 then throw DeclarationFault.noPair
      return (⟨kind, precedence, symbols, prior, span⟩ : Declaration)) = .ok d) :
    d.kind = kind ∧ d.precedence = precedence ∧ (∀ word ∈ rest, word.IsBare) ∧
      ∀ symbol ∈ d.symbols, .name symbol ∈ rest := by
  obtain ⟨⟨symbols, prior⟩, read, ok⟩ := bind_ok ok
  dsimp only at ok
  split at ok
  · cases ok
  · split at ok
    · cases ok
    · cases ok
      exact ⟨rfl, rfl, takeSymbols_ok read⟩

theorem ofWords_ok {span : Span} {words : List Tree} (ok : ofWords kind span words = .ok d) :
    d.kind = kind ∧ (kind ≠ .bracket → d.precedence.isSome = true) ∧ (∀ word ∈ words, word.IsBare) ∧
      ∀ symbol ∈ d.symbols, .name symbol ∈ words := by
  unfold ofWords at ok
  dsimp only at ok
  split at ok
  · next pair =>
    obtain ⟨kind', -, each, named⟩ := ofSymbols_ok ok
    exact ⟨kind', fun other => absurd (beq_iff_eq.1 pair) other, each, named⟩
  · obtain ⟨⟨n, rest⟩, first, ok⟩ := bind_ok ok
    obtain ⟨kind', precedence, each, named⟩ := ofSymbols_ok ok
    obtain ⟨value, place, rfl⟩ := takePrecedence_ok first
    exact ⟨kind', fun _ => by rw [precedence]; rfl,
      List.forall_mem_cons.2 ⟨.inl ⟨value, place, rfl⟩, each⟩,
      fun symbol inside => List.mem_cons_of_mem _ (named symbol inside)⟩

/-- Only words make a declaration, and its symbols are names among them. -/
theorem ofOperand_ok {keyword : Tag} {operand : Tree} (ok : ofOperand kind keyword operand = .ok d) :
    d.kind = kind ∧ (kind ≠ .bracket → d.precedence.isSome = true) ∧
      (∀ x, x.isLeaf = true → Tree.Part x operand → x.IsBare) ∧
      ∀ symbol ∈ d.symbols, Tree.Part (.name symbol) operand := by
  unfold ofOperand at ok
  dsimp only at ok
  split at ok
  · next read =>
    cases ok
    obtain ⟨kind, precedence, each, named⟩ := ofWords_ok read
    refine ⟨kind, precedence, fun x leaf part => ?_, fun symbol inside => ?_⟩
    · obtain ⟨word, inside, part⟩ := (Tree.part_spine leaf operand).1 part
      have isWord := each word inside
      rwa [(Tree.part_leaf isWord.isLeaf).1 part]
    · exact (Tree.part_spine rfl operand).2 ⟨_, named symbol inside, .root⟩
  · cases ok

theorem ofOperand_words {keyword : Tag} {operand : Tree} (ok : ofOperand kind keyword operand = .ok d) :
    ∀ word ∈ operand.spine.1 :: operand.spine.2, word.IsBare := by
  unfold ofOperand at ok
  dsimp only at ok
  split at ok
  · next read => exact (ofWords_ok read).2.2.1
  · cases ok

/-- What a declaration registers. -/
theorem mem_rules {symbol : Tag} {rule : Rule} (inside : (symbol, rule) ∈ d.rules) :
    symbol ∈ d.symbols ∧ rule.symbol = symbol.text ∧
      (rule = d.ruleOf symbol.text ∧ d.kind ≠ .bracket ∨
        d.kind = .bracket ∧ ∃ opening closing, d.symbols = [opening, closing] ∧
          ((symbol, rule) = (opening, .opening opening.text closing.text .user) ∨
            (symbol, rule) = (closing, .closing closing.text opening.text .user))) := by
  unfold rules at inside
  split at inside
  · next opening closing pair both =>
    rw [List.mem_cons, List.mem_singleton] at inside
    refine ⟨?_, ?_, .inr ⟨pair, opening, closing, both, inside⟩⟩
    · rcases inside with same | same <;> cases same <;> simp [both]
    · rcases inside with same | same <;> cases same <;> rfl
  · cases inside
  · next pairs _ =>
    obtain ⟨tag, member, same⟩ := List.mem_map.1 inside
    cases same
    refine ⟨member, ?_, .inl ⟨rfl, fun pair => ?_⟩⟩
    · unfold ruleOf
      cases d.kind <;> cases d.prior <;> rfl
    · exact pairs pair

end Declaration

namespace Parser

variable {p q : Parser}

/-- Rules are registered in the innermost scope, and none of them twice. -/
theorem registerRules_ok {rules : List (Tag × Rule)} (ok : p.registerRules rules = .ok q) :
    q.registry.scope = p.registry.scope ∧
      q.registry.entries = (rules.map fun r => ⟨p.registry.scope, r.2⟩).reverse ++ p.registry.entries ∧
      (rules.map fun r => r.2.symbol).Nodup ∧
      ∀ r ∈ rules, ∀ e, p.registry.find? r.2.symbol = some e → e.scope ≠ p.registry.scope := by
  fun_induction registerRules p rules with
  | case1 p =>
    cases ok
    simp
  | case2 p tag rule rules registry registered ih =>
    obtain ⟨scope, entries, nodup, fresh⟩ := ih ok
    unfold Registry.register at registered
    split at registered
    · cases registered
    · next new =>
      cases registered
      refine ⟨scope, by rw [entries]; simp, ?_, ?_⟩
      · rw [List.map_cons, List.nodup_cons]
        refine ⟨fun twice => ?_, nodup⟩
        obtain ⟨r, inside, same⟩ := List.mem_map.1 twice
        refine fresh r inside ⟨p.registry.scope, rule⟩ ?_ rfl
        simp [Registry.find?, same]
      · rw [List.forall_mem_cons]
        refine ⟨fun e found same => new ?_, fun r inside e found same => ?_⟩
        · rw [found]
          simp [same]
        · by_cases twice : rule.symbol = r.2.symbol
          · refine fresh r inside ⟨p.registry.scope, rule⟩ ?_ rfl
            simp [Registry.find?, twice]
          · refine fresh r inside e ?_ same
            rw [Registry.find?, List.find?_cons_of_neg (by simpa using twice)]
            exact found
  | case3 => cases ok

end Parser

end MixfixLambda
