import MixfixLambda.Bind.Pattern
import MixfixLambda.Proofs.Term.Scope

/-!
# Scopes of encodings and patterns

The terms that data is encoded by are closed. The function that a pattern becomes is scoped around it
where its body is scoped under the variables of the pattern.
-/
namespace MixfixLambda

namespace Encoding

open Term

variable {depth limit : Nat}

@[simp]
theorem length_numbered (letter : String) (count : Nat) :
    (numbered letter count).length = count := by
  simp [numbered]

theorem fn_scoped (names : List String) (body : Term) :
    (fn names body).Scoped depth limit ↔ body.Scoped (depth + names.length) limit := by
  simp [fn, lams_scoped]

theorem vars_scoped (names : List String) (above : Nat) (deep : above + names.length ≤ depth) :
    ∀ t ∈ vars names above, t.Scoped depth limit := by
  intro t member
  simp only [vars, List.mem_iff_getElem, List.length_zipWith, List.length_range] at member
  obtain ⟨i, bound, rfl⟩ := member
  have below : i < names.length := by omega
  simp only [List.getElem_zipWith, List.getElem_range, v, var_scoped]
  omega

theorem identity_scoped : identity.Scoped depth limit := by
  simp [identity, fn_scoped, v]

theorem nil_scoped : nil.Scoped depth limit := by
  simp [nil, fn_scoped, v]

theorem cons_scoped : cons.Scoped depth limit := by
  simp [cons, fn_scoped, applyAll_scoped, v]

theorem fix_scoped : fix.Scoped depth limit := by
  simp [fix, fn_scoped, v]

theorem list_scoped (items : List Term) (inside : ∀ t ∈ items, t.Scoped depth limit) :
    (list items).Scoped depth limit := by
  induction items with
  | nil => exact nil_scoped
  | cons head rest ih =>
    obtain ⟨first, others⟩ := List.forall_mem_cons.mp inside
    have tail := ih others
    simp only [list, List.foldr_cons] at tail ⊢
    simp [applyAll_scoped, cons_scoped, first, tail]

theorem string_scoped (bytes : List UInt8) : (string bytes).Scoped depth limit := by
  refine list_scoped _ (fun t member => ?_)
  obtain ⟨byte, _, rfl⟩ := List.mem_map.mp member
  exact int_scoped _

theorem tuple_scoped (arity : Nat) : (tuple arity).Scoped depth limit := by
  simp only [tuple, fn_scoped, applyAll_scoped, List.length_append, length_numbered, v, var_scoped,
    List.length_singleton]
  refine ⟨by omega, vars_scoped _ _ ?_⟩
  simp only [length_numbered]
  omega

theorem projection_scoped {arity index : Nat} (inside : index < arity) :
    (projection arity index).Scoped depth limit := by
  simp only [projection, fn_scoped, app_scoped, v, var_scoped, length_numbered,
    List.length_singleton]
  omega

theorem constructor_scoped {fields alternatives index : Nat} (inside : index < alternatives) :
    (constructor fields alternatives index).Scoped depth limit := by
  simp only [constructor, fn_scoped, applyAll_scoped, List.length_append, length_numbered, v,
    var_scoped]
  refine ⟨by omega, vars_scoped _ _ ?_⟩
  simp only [length_numbered]
  omega

theorem dispatcher_scoped (alternatives : Nat) : (dispatcher alternatives).Scoped depth limit := by
  simp only [dispatcher, fn_scoped, applyAll_scoped, List.length_cons, length_numbered, v,
    var_scoped]
  refine ⟨by omega, vars_scoped _ _ ?_⟩
  simp only [length_numbered]
  omega

theorem caseDispatcher_scoped (arities : List Nat) (index : Nat) :
    (caseDispatcher arities index).Scoped depth limit := by
  simp only [caseDispatcher, fn_scoped, applyAll_scoped, v, var_scoped, List.length_cons,
    List.length_nil]
  refine ⟨by omega, ?_⟩
  intro handler member
  simp only [List.mem_iff_getElem, List.length_zipWith, List.length_range] at member
  obtain ⟨i, bound, rfl⟩ := member
  simp only [List.getElem_zipWith, List.getElem_range]
  split
  · simp only [var_scoped]
    omega
  · simp only [fn_scoped, var_scoped, length_numbered]
    omega

end Encoding

namespace Pattern

open Term

variable {limit : Nat}

mutual

/-- A pattern binds its own variables around the body and nothing else. -/
theorem abstract_scoped (body : Term) (pattern : Pattern) (depth : Nat)
    (inside : body.Scoped (depth + pattern.locals.length) limit) :
    (abstract body pattern).Scoped depth limit := by
  match pattern with
  | .name tag => exact inside
  | .unit => exact inside
  | .tuple items =>
    simp only [locals, List.length_cons] at inside
    simp only [abstract, lam_scoped, applyAll_scoped]
    refine ⟨abstractAll_scoped body items (depth + 1) (by rwa [Nat.add_assoc, Nat.add_comm 1]), ?_⟩
    intro part member
    simp only [List.mem_map, List.mem_range] at member
    obtain ⟨index, bound, rfl⟩ := member
    exact ⟨Encoding.projection_scoped bound, Nat.succ_pos depth⟩
  | .asPattern tag pattern =>
    simp only [locals, List.length_cons] at inside
    refine ⟨abstract_scoped body pattern (depth + 1) ?_, Nat.succ_pos depth⟩
    rwa [Nat.add_assoc, Nat.add_comm 1]

theorem abstractAll_scoped (body : Term) (patterns : List Pattern) (depth : Nat)
    (inside : body.Scoped (depth + (localsAll patterns).length) limit) :
    (abstractAll body patterns).Scoped depth limit := by
  match patterns with
  | [] => exact inside
  | pattern :: rest =>
    simp only [localsAll, List.length_append] at inside
    apply abstract_scoped (abstractAll body rest) pattern depth
    apply abstractAll_scoped body rest
    rwa [Nat.add_assoc]

end

end Pattern

end MixfixLambda
