import Mathlib.Data.List.TakeWhile
import MixfixLambda.Proofs.Syntax.Default

/-!
# Registries over time

Registries as their operations make them, and what the scopes that were opened and closed since a registry
leave of it.
-/
namespace MixfixLambda.Registry

/-- Registries as its operations make them. -/
inductive Built : Registry → Prop
  | empty : Built .empty
  | register {r s : Registry} {rule : Rule} (built : Built r) (registered : r.register rule = some s) : Built s
  | pushScope {r : Registry} (built : Built r) : Built r.pushScope
  | popScope {r : Registry} (built : Built r) : Built r.popScope

theorem Built.registerAll {r : Registry} (built : r.Built) (rules : List Rule) : (r.registerAll rules).Built := by
  induction rules generalizing r with
  | nil => exact built
  | cons rule rules ih =>
    refine ih ?_
    change ((r.register rule).getD r).Built
    cases registered : r.register rule with
    | none => exact built
    | some s => exact built.register registered

theorem Built.default : Registry.default.Built :=
  Built.empty.registerAll defaultRules

/-- Without those of the innermost scope, all registrations are older. -/
theorem older_dropWhile {entries : List Registration} {scope : Nat}
    (sorted : entries.Pairwise fun e e' => e'.scope ≤ e.scope) (older : ∀ e ∈ entries, e.scope ≤ scope) :
    ∀ e ∈ entries.dropWhile (·.scope == scope), e.scope ≤ scope - 1 := by
  intro e inside
  cases rest : entries.dropWhile (·.scope == scope) with
  | nil =>
    rw [rest] at inside
    cases inside
  | cons first entries' =>
    have other : first.scope ≠ scope := by
      have := List.head?_dropWhile_not (p := fun e : Registration => e.scope == scope) entries
      rw [rest] at this
      simpa using this
    have sorted' := sorted.sublist (List.dropWhile_sublist (·.scope == scope))
    have below := older first ((List.dropWhile_sublist (·.scope == scope)).subset (by rw [rest]; simp))
    rw [rest] at inside sorted'
    rcases List.mem_cons.1 inside with rfl | inside
    · omega
    · have := List.rel_of_pairwise_cons sorted' inside
      omega

theorem mem_of_mem_popScope {r : Registry} {e : Registration} (inside : e ∈ r.popScope.entries) : e ∈ r.entries := by
  unfold popScope at inside
  split at inside
  · exact inside
  · exact (List.dropWhile_sublist _).subset inside

/-- Registrations that are older than the innermost scope stay when it is closed. -/
theorem mem_popScope {r : Registry} {e : Registration} (inside : e ∈ r.entries) (older : e.scope < r.scope) :
    e ∈ r.popScope.entries := by
  rw [popScope, if_neg (by omega)]
  have split := List.takeWhile_append_dropWhile (p := fun e : Registration => e.scope == r.scope) (l := r.entries)
  rw [← split, List.mem_append] at inside
  refine inside.resolve_left fun front => ?_
  have same := List.mem_takeWhile_imp front
  simp only [beq_iff_eq] at same
  omega

/-- Newer registrations are of inner scopes, and none is of a scope that is not open. -/
theorem Built.ordered {r : Registry} (built : r.Built) :
    r.entries.Pairwise (fun e e' => e'.scope ≤ e.scope) ∧ ∀ e ∈ r.entries, e.scope ≤ r.scope := by
  induction built with
  | empty => simp [Registry.empty]
  | @register r s rule _ registered ih =>
    unfold Registry.register at registered
    split at registered
    · cases registered
    · cases registered
      exact ⟨List.pairwise_cons.2 ⟨ih.2, ih.1⟩, List.forall_mem_cons.2 ⟨Nat.le_refl _, ih.2⟩⟩
  | pushScope _ ih => exact ⟨ih.1, fun e inside => Nat.le_succ_of_le (ih.2 e inside)⟩
  | @popScope r _ ih =>
    unfold Registry.popScope
    split
    · exact ih
    · exact ⟨ih.1.sublist (List.dropWhile_sublist _), older_dropWhile ih.1 ih.2⟩

theorem Built.older {r : Registry} (built : r.Built) : ∀ e ∈ r.entries, e.scope ≤ r.scope :=
  built.ordered.2

/-- The registrations since a registry, where those of the same scope are of symbols that satisfy the
condition. -/
def Since (start r : Registry) (D : String → Prop) : Prop :=
  ∃ news, r.entries = news ++ start.entries ∧ (news.Pairwise fun e e' => e'.scope ≤ e.scope) ∧
    (∀ e ∈ news, start.scope ≤ e.scope ∧ e.scope ≤ r.scope) ∧
    ∀ e ∈ news, e.scope = start.scope → D e.rule.symbol

variable {start r s : Registry} {D D' : String → Prop}

theorem since_self (start : Registry) : Since start start D :=
  ⟨[], rfl, .nil, by simp, by simp⟩

theorem Since.mono (since : Since start r D) (weaker : ∀ symbol, D symbol → D' symbol) : Since start r D' :=
  let ⟨news, entries, sorted, bounds, declared⟩ := since
  ⟨news, entries, sorted, bounds, fun e inside same => weaker _ (declared e inside same)⟩

theorem Since.pushScope (since : Since start r D) : Since start r.pushScope D :=
  let ⟨news, entries, sorted, bounds, declared⟩ := since
  ⟨news, entries, sorted, fun e inside => ⟨(bounds e inside).1, Nat.le_succ_of_le (bounds e inside).2⟩, declared⟩

/-- Closing an inner scope drops its registrations and keeps all others. -/
theorem Since.popScope (since : Since start r D) (older : ∀ e ∈ start.entries, e.scope ≤ start.scope)
    (inner : start.scope < r.scope) : Since start r.popScope D := by
  obtain ⟨news, entries, sorted, bounds, declared⟩ := since
  have kept : start.entries.dropWhile (·.scope == r.scope) = start.entries := by
    cases here : start.entries with
    | nil => rfl
    | cons e rest =>
      have first := older e (by rw [here]; exact List.mem_cons_self ..)
      rw [List.dropWhile_cons_of_neg]
      simp only [beq_iff_eq]
      omega
  have sub := List.dropWhile_sublist (l := news) (·.scope == r.scope)
  have below := older_dropWhile sorted fun e inside => (bounds e inside).2
  refine ⟨news.dropWhile (·.scope == r.scope), ?_, sorted.sublist sub, fun e inside => ?_,
    fun e inside => declared e (sub.subset inside)⟩
  · rw [Registry.popScope, if_neg (by omega)]
    dsimp only
    rw [entries, List.dropWhile_append, kept]
    split
    · next none => rw [List.isEmpty_iff.1 none, List.nil_append]
    · rfl
  · have last := below e inside
    have shape : r.popScope.scope = r.scope - 1 := by rw [Registry.popScope, if_neg (by omega)]
    exact ⟨(bounds e (sub.subset inside)).1, shape ▸ last⟩

/-- New rules of the innermost scope. -/
theorem Since.register (since : Since start r D) (rules : List Rule) (inside : start.scope ≤ r.scope)
    (scope : s.scope = r.scope)
    (entries : s.entries = (rules.map (Registration.mk r.scope)).reverse ++ r.entries)
    (declared : r.scope = start.scope → ∀ rule ∈ rules, D rule.symbol) : Since start s D := by
  obtain ⟨news, entries', sorted, bounds, declared'⟩ := since
  have new : ∀ e ∈ (rules.map (Registration.mk r.scope)).reverse, e.scope = r.scope ∧ e.rule ∈ rules := by
    intro e inside
    rw [List.mem_reverse, List.mem_map] at inside
    obtain ⟨rule, inside, rfl⟩ := inside
    exact ⟨rfl, inside⟩
  refine ⟨(rules.map (Registration.mk r.scope)).reverse ++ news, by rw [entries, entries', List.append_assoc],
    List.pairwise_append.2 ⟨?_, sorted, fun e inside e' inside' => ?_⟩, fun e inside' => ?_, fun e inside' same => ?_⟩
  · exact List.pairwise_of_forall_mem_list fun e inside e' inside' =>
      Nat.le_of_eq ((new e' inside').1.trans (new e inside).1.symm)
  · rw [(new e inside).1]
    exact (bounds e' inside').2
  · rw [scope]
    rcases List.mem_append.1 inside' with inside' | inside'
    · rw [(new e inside').1]
      exact ⟨inside, Nat.le_refl _⟩
    · exact bounds e inside'
  · rcases List.mem_append.1 inside' with inside' | inside'
    · exact declared ((new e inside').1.symm.trans same) _ (new e inside').2
    · exact declared' e inside' same

/-- Back in the scope it started from, a registry differs only in the symbols that were declared there. -/
theorem Since.lookup (since : Since start r D) (back : r.scope = start.scope) (symbol : String) :
    r.lookup symbol = start.lookup symbol ∨ D symbol := by
  obtain ⟨news, entries, -, bounds, declared⟩ := since
  by_cases found : ∃ e ∈ news, e.rule.symbol = symbol
  · obtain ⟨e, inside, rfl⟩ := found
    have := bounds e inside
    exact .inr (declared e inside (by omega))
  · have none : news.find? (·.rule.symbol == symbol) = none := by
      rw [List.find?_eq_none]
      exact fun e inside same => found ⟨e, inside, beq_iff_eq.1 same⟩
    left
    rw [Registry.lookup, find?, entries, List.find?_append, none, Option.none_or]
    rfl

end MixfixLambda.Registry
