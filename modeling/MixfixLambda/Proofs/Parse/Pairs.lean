import MixfixLambda.Proofs.Parse.Declaration
import MixfixLambda.Proofs.Syntax.Registry

/-!
# Pairs of brackets

The symbols of brackets cannot be declared anew while their scope is open, and both symbols of a pair are
registered in the same scope. Hence what a symbol of a bracket is looked up as is its only bracket, and its
partner is in force as long as it is.
-/
namespace MixfixLambda

/-- The rule of a written bracket. -/
def Rule.IsBracket (rule : Rule) : Prop :=
  rule.fixity = .opening ∨ rule.fixity = .closing

/-- The registrations of one pair of brackets. -/
def Partners (opening closing : Registration) : Prop :=
  opening.scope = closing.scope ∧
    ∃ a b kind, opening.rule = .opening a b kind ∧ closing.rule = .closing b a kind

/-- Where a declaration registers a bracket, it registers a pair of brackets and nothing else. -/
theorem Declaration.rules_pair {d : Declaration} {symbol : Tag} {rule : Rule} (inside : (symbol, rule) ∈ d.rules)
    (bracket : rule.IsBracket) : ∃ opening closing : Tag, d.rules =
      [(opening, .opening opening.text closing.text .user), (closing, .closing closing.text opening.text .user)] := by
  obtain ⟨-, -, ⟨rfl, -⟩ | ⟨pair, opening, closing, symbols, -⟩⟩ := mem_rules inside
  · have operator : (d.ruleOf symbol.text).fixity ≠ .opening ∧ (d.ruleOf symbol.text).fixity ≠ .closing := by
      unfold ruleOf
      cases d.kind <;> cases d.prior <;> exact ⟨Fixity.noConfusion, Fixity.noConfusion⟩
    exact absurd bracket (not_or.2 operator)
  · exact ⟨opening, closing, by rw [rules, pair, symbols]⟩

namespace Registry

/-- Every bracket is found by its symbol, and its partner is there. -/
structure Paired (r : Registry) : Prop where
  sorted : r.entries.Pairwise fun e e' => e'.scope ≤ e.scope
  older : ∀ e ∈ r.entries, e.scope ≤ r.scope
  found : ∀ e ∈ r.entries, e.rule.IsBracket → r.find? e.rule.symbol = some e
  pairs : ∀ e ∈ r.entries, e.rule.IsBracket → ∃ other ∈ r.entries, Partners e other ∨ Partners other e

variable {r s : Registry} {e : Registration}

theorem paired_default : Registry.default.Paired where
  sorted := by decide +kernel
  older e inside := (mem_default_entries inside).1 ▸ Nat.zero_le _
  found e inside _ := by
    have all : ∀ e ∈ default.entries, default.find? e.rule.symbol = some e := by decide +kernel
    exact all e inside
  pairs e inside bracket := by
    have listed : ∀ rule ∈ defaultRules, rule.fixity = .opening ∨ rule.fixity = .closing →
        ∃ pair ∈ [("(", ")", BracketKind.paren), ("[", "]", .square), ("\x7b", "\x7d", .brace)],
          rule = .opening pair.1 pair.2.1 pair.2.2 ∨ rule = .closing pair.2.1 pair.1 pair.2.2 := by
      decide +kernel
    have there : ∀ pair ∈ [("(", ")", BracketKind.paren), ("[", "]", .square), ("\x7b", "\x7d", .brace)],
        ⟨0, .opening pair.1 pair.2.1 pair.2.2⟩ ∈ default.entries ∧
          ⟨0, .closing pair.2.1 pair.1 pair.2.2⟩ ∈ default.entries := by
      decide +kernel
    obtain ⟨scope, rule⟩ := e
    obtain ⟨same, inside⟩ := mem_default_entries inside
    cases same
    obtain ⟨pair, one, rfl | rfl⟩ := listed rule inside bracket
    · exact ⟨_, (there pair one).2, .inl ⟨rfl, _, _, _, rfl, rfl⟩⟩
    · exact ⟨_, (there pair one).1, .inr ⟨rfl, _, _, _, rfl, rfl⟩⟩

/-- Two brackets in force with one symbol are the same. -/
theorem Paired.unique (paired : r.Paired) {e' : Registration} (inside : e ∈ r.entries) (inside' : e' ∈ r.entries)
    (bracket : e.rule.IsBracket) (bracket' : e'.rule.IsBracket) (same : e.rule.symbol = e'.rule.symbol) : e = e' :=
  Option.some.inj ((paired.found e inside bracket).symm.trans (same ▸ paired.found e' inside' bracket'))

/-- The bracket that a closing one finds by its symbol is its partner in the rules. -/
theorem Paired.partners {opening closing : Registration} (paired : r.Paired) (member : opening ∈ r.entries)
    (member' : closing ∈ r.entries) (opens : opening.rule.fixity = .opening) (closes : closing.rule.fixity = .closing)
    (found : opening.rule.partner = some closing.rule.symbol) : Partners opening closing := by
  obtain ⟨other, inside, ⟨scopes, a, b, kind, first, second⟩ | ⟨-, _, _, _, -, second⟩⟩ :=
    paired.pairs opening member (.inl opens)
  · have same : other = closing := by
      refine paired.unique inside member' ?_ (.inr closes) ?_
      · rw [second]
        exact .inr rfl
      · rw [first] at found
        rw [second]
        exact Option.some.inj found
    exact same ▸ ⟨scopes, a, b, kind, first, second⟩
  · rw [second] at opens
    cases opens

theorem Paired.pushScope (paired : r.Paired) : r.pushScope.Paired :=
  ⟨paired.sorted, fun e inside => Nat.le_succ_of_le (paired.older e inside), paired.found, paired.pairs⟩

theorem Paired.popScope (paired : r.Paired) : r.popScope.Paired := by
  by_cases base : r.scope = 0
  · rwa [Registry.popScope, if_pos base]
  · have entries : r.popScope.entries = r.entries.dropWhile (·.scope == r.scope) := by
      rw [Registry.popScope, if_neg base]
    have scope : r.popScope.scope = r.scope - 1 := by rw [Registry.popScope, if_neg base]
    have sub := List.dropWhile_sublist (l := r.entries) (·.scope == r.scope)
    have older : ∀ e ∈ r.popScope.entries, e.scope ≤ r.scope - 1 := by
      rw [entries]
      exact older_dropWhile paired.sorted paired.older
    refine ⟨entries ▸ paired.sorted.sublist sub, scope ▸ older, fun e inside bracket => ?_, fun e inside bracket => ?_⟩
    · have whole := paired.found e (sub.subset (entries ▸ inside)) bracket
      have split := List.takeWhile_append_dropWhile (p := fun e : Registration => e.scope == r.scope) (l := r.entries)
      rw [find?, ← split, List.find?_append, ← entries] at whole
      cases front : (r.entries.takeWhile (·.scope == r.scope)).find? (·.rule.symbol == e.rule.symbol) with
      | none =>
        rw [front, Option.none_or] at whole
        exact whole
      | some e' =>
        rw [front, Option.some_or] at whole
        cases whole
        have same := List.mem_takeWhile_imp (List.mem_of_find?_eq_some front)
        have below := older e inside
        simp only [beq_iff_eq] at same
        omega
    · obtain ⟨other, member, partners⟩ := paired.pairs e (sub.subset (entries ▸ inside)) bracket
      have same : other.scope = e.scope := partners.elim (fun both => both.1.symm) fun both => both.1
      have below := older e inside
      exact ⟨other, mem_popScope member (by omega), partners⟩

/-- A declaration of symbols that are none of a bracket in force keeps the pairs. -/
theorem Paired.register {d : Declaration} (paired : r.Paired) (scope : s.scope = r.scope)
    (entries : s.entries = (d.rules.map fun rule => ⟨r.scope, rule.2⟩).reverse ++ r.entries)
    (nodup : (d.rules.map fun rule => rule.2.symbol).Nodup)
    (fresh : ∀ rule ∈ d.rules, ∀ e ∈ r.entries, e.rule.IsBracket → e.rule.symbol ≠ rule.2.symbol) : s.Paired := by
  have new : ∀ e ∈ (d.rules.map fun rule => (⟨r.scope, rule.2⟩ : Registration)).reverse,
      e.scope = r.scope ∧ ∃ symbol, (symbol, e.rule) ∈ d.rules := by
    intro e inside
    rw [List.mem_reverse, List.mem_map] at inside
    obtain ⟨⟨symbol, rule⟩, inside, rfl⟩ := inside
    exact ⟨rfl, symbol, inside⟩
  refine ⟨?_, ?_, fun e inside bracket => ?_, fun e inside bracket => ?_⟩
  · rw [entries]
    refine List.pairwise_append.2 ⟨?_, paired.sorted, fun e inside e' inside' => ?_⟩
    · exact List.pairwise_of_forall_mem_list fun e inside e' inside' =>
        Nat.le_of_eq ((new e' inside').1.trans (new e inside).1.symm)
    · rw [(new e inside).1]
      exact paired.older e' inside'
  · intro e inside
    rw [scope]
    rw [entries, List.mem_append] at inside
    exact inside.elim (fun inside => Nat.le_of_eq (new e inside).1) (paired.older e)
  · rw [entries, List.mem_append] at inside
    rcases inside with inside | inside
    · obtain ⟨-, symbol, member⟩ := new e inside
      obtain ⟨opening, closing, pair⟩ := d.rules_pair member bracket
      rw [pair] at nodup inside
      have differ : opening.text ≠ closing.text := by simpa [Rule.opening, Rule.closing] using nodup
      rw [find?, entries, pair]
      simp only [List.map_cons, List.map_nil, List.reverse_cons, List.reverse_nil, List.nil_append,
        List.cons_append, List.mem_cons, List.not_mem_nil, or_false] at inside ⊢
      rcases inside with rfl | rfl
      · simp [Rule.closing]
      · simp [Rule.opening, Rule.closing, differ.symm]
    · rw [find?, entries, List.find?_append, List.find?_eq_none.2, Option.none_or]
      · exact paired.found e inside bracket
      · intro e' inside' same
        obtain ⟨-, symbol, member⟩ := new e' inside'
        exact fresh _ member e inside bracket (beq_iff_eq.1 same).symm
  · rw [entries, List.mem_append] at inside
    rcases inside with inside | inside
    · obtain ⟨-, symbol, member⟩ := new e inside
      obtain ⟨opening, closing, pair⟩ := d.rules_pair member bracket
      rw [pair] at inside
      rw [entries, pair]
      simp only [List.map_cons, List.map_nil, List.reverse_cons, List.reverse_nil, List.nil_append,
        List.cons_append, List.mem_cons, List.not_mem_nil, or_false] at inside ⊢
      rcases inside with rfl | rfl
      · exact ⟨_, .inr (.inl rfl), .inr ⟨rfl, _, _, _, rfl, rfl⟩⟩
      · exact ⟨_, .inl rfl, .inl ⟨rfl, _, _, _, rfl, rfl⟩⟩
    · obtain ⟨other, member, partners⟩ := paired.pairs e inside bracket
      exact ⟨other, by rw [entries]; exact List.mem_append_right _ member, partners⟩

end Registry

end MixfixLambda
