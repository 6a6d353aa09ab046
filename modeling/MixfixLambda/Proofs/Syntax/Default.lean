import Mathlib.Data.List.Nodup
import MixfixLambda.Syntax.Default

/-!
# The rules of the default grammar

A bracket that declares nothing leaves the rules as they were, so that the default grammar stays in force
in every scope of a source without declarations.
-/
namespace MixfixLambda

namespace Registry

theorem lookup_congr {r s : Registry} (same : r.entries = s.entries) (symbol : String) :
    r.lookup symbol = s.lookup symbol := by
  unfold lookup find?
  rw [same]

theorem mem_of_find? {r : Registry} {symbol : String} {e : Registration}
    (found : r.find? symbol = some e) : e ∈ r.entries ∧ e.rule.symbol = symbol := by
  have same := List.find?_some found
  exact ⟨List.mem_of_find?_eq_some found, beq_iff_eq.1 same⟩

theorem find?_eq_none {r : Registry} {symbol : String} :
    r.find? symbol = none ↔ ∀ e ∈ r.entries, e.rule.symbol ≠ symbol := by
  simp [find?]

/-- Closing a scope that nothing was registered in restores the registry. -/
theorem popScope_pushScope {r : Registry} (older : ∀ e ∈ r.entries, e.scope ≤ r.scope) :
    r.pushScope.popScope = r := by
  obtain ⟨entries, scope⟩ := r
  have kept : entries.dropWhile (·.scope == scope + 1) = entries := by
    cases entries with
    | nil => rfl
    | cons e entries =>
      have first : e.scope ≤ scope := older e (List.mem_cons_self ..)
      rw [List.dropWhile_cons_of_neg]
      simp only [beq_iff_eq]
      omega
  simp [popScope, pushScope, kept]

/-- Rules of different new symbols are all registered. -/
theorem registerAll_eq {r : Registry} {rules : List Rule} (nodup : (rules.map Rule.symbol).Nodup)
    (fresh : ∀ rule ∈ rules, ∀ e ∈ r.entries, e.rule.symbol ≠ rule.symbol) :
    r.registerAll rules = ⟨(rules.map (Registration.mk r.scope)).reverse ++ r.entries, r.scope⟩ := by
  induction rules generalizing r with
  | nil => rfl
  | cons rule rules ih =>
    rw [List.map_cons, List.nodup_cons] at nodup
    have none : r.find? rule.symbol = none := find?_eq_none.2 (fresh rule (List.mem_cons_self ..))
    have registered : r.register rule = some { r with entries := ⟨r.scope, rule⟩ :: r.entries } := by
      simp [register, none]
    have step : r.registerAll (rule :: rules) =
        registerAll { r with entries := ⟨r.scope, rule⟩ :: r.entries } rules := by
      simp [registerAll, registered]
    rw [step, ih nodup.2]
    · simp
    · intro other inside e found
      rcases List.mem_cons.1 found with rfl | found
      · intro same
        exact nodup.1 (List.mem_map.2 ⟨other, inside, same.symm⟩)
      · exact fresh other (List.mem_cons_of_mem _ inside) e found

theorem default_entries : default.entries = (defaultRules.map (Registration.mk 0)).reverse := by
  rw [default, registerAll_eq nodup_defaultRules (by simp [empty])]
  simp [empty]

theorem mem_default_entries {e : Registration} (found : e ∈ default.entries) :
    e.scope = 0 ∧ e.rule ∈ defaultRules := by
  rw [default_entries, List.mem_reverse, List.mem_map] at found
  obtain ⟨rule, inside, rfl⟩ := found
  exact ⟨rfl, inside⟩

/-- Every symbol is an operand, or has the rule that the default grammar lists for it. -/
theorem default_lookup_cases (symbol : String) :
    default.lookup symbol = Rule.operand symbol ∨
      default.lookup symbol ∈ defaultRules ∧ (default.lookup symbol).symbol = symbol := by
  unfold lookup
  cases found : default.find? symbol with
  | none => exact .inl rfl
  | some entry =>
    obtain ⟨inside, same⟩ := mem_of_find? found
    exact .inr ⟨(mem_default_entries inside).2, same⟩

theorem default_lookup_operand {symbol : String} (unlisted : ∀ rule ∈ defaultRules, rule.symbol ≠ symbol) :
    default.lookup symbol = Rule.operand symbol :=
  (default_lookup_cases symbol).resolve_right fun ⟨found, same⟩ => unlisted _ found same

/-- The rules of the default grammar are found by their symbols. -/
theorem default_lookup {rule : Rule} (listed : rule ∈ defaultRules) :
    default.lookup rule.symbol = rule := by
  have entry : Registration.mk 0 rule ∈ default.entries := by
    rw [default_entries, List.mem_reverse]
    exact List.mem_map_of_mem listed
  rcases default_lookup_cases rule.symbol with operand | ⟨found, same⟩
  · unfold lookup at operand
    cases found : default.find? rule.symbol with
    | none => exact absurd rfl (find?_eq_none.1 found _ entry)
    | some other =>
      rw [found] at operand
      have inside := (mem_default_entries (mem_of_find? found).1).2
      have no : ∀ rule ∈ defaultRules, rule.reduction ≠ .operand := by decide +kernel
      exact absurd (congrArg Rule.reduction operand) (no _ inside)
  · exact List.inj_on_of_nodup_map nodup_defaultRules found listed same

end Registry

end MixfixLambda
