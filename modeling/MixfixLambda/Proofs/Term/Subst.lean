import MixfixLambda.Proofs.Term.Scope

/-!
# Substitution

Substitution for one variable, as beta reduction does it, and for all free variables at once, as an
environment of closed terms stands for it. A closed term is left alone by both.
-/
namespace MixfixLambda.Term

/-- One binder more around the term: variables that are bound at `cut` or further out move up. -/
def lift (cut : Nat) : Term → Term
  | .var index tag => if index < cut then .var index tag else .var (index + 1) tag
  | .lam tag body => .lam tag (body.lift (cut + 1))
  | .app left right => .app (left.lift cut) (right.lift cut)
  | t => t

/-- The term with `value` for the variable at `depth`, whose binder goes away. -/
def subst : Term → (depth : Nat) → (value : Term) → Term
  | .var index tag, depth, value =>
    if index < depth then .var index tag
    else if index = depth then value
    else .var (index - 1) tag
  | .lam tag body, depth, value => .lam tag (body.subst (depth + 1) (value.lift 0))
  | .app left right, depth, value => .app (left.subst depth value) (right.subst depth value)
  | t, _, _ => t

/-- The term with closed terms for its free variables; `depth` of its binders have been passed. -/
def close (values : List Term) (depth : Nat) : Term → Term
  | .var index tag =>
    if index < depth then .var index tag else (values[index - depth]?).getD (.var index tag)
  | .lam tag body => .lam tag (body.close values (depth + 1))
  | .app left right => .app (left.close values depth) (right.close values depth)
  | t => t

variable {depth limit : Nat}

theorem Scoped.lift_eq {t : Term} {cut : Nat} (inside : t.Scoped depth limit) (outer : depth ≤ cut) :
    t.lift cut = t := by
  induction t generalizing depth cut with
  | int | builtin | global => rfl
  | var index tag =>
    have below : index < cut := Nat.lt_of_lt_of_le inside outer
    rw [lift, if_pos below]
  | lam tag body ih => rw [lift, ih inside (Nat.succ_le_succ outer)]
  | app left right ihl ihr => rw [lift, ihl inside.1 outer, ihr inside.2 outer]

theorem Scoped.subst_eq {t value : Term} {place : Nat} (inside : t.Scoped depth limit)
    (outer : depth ≤ place) : t.subst place value = t := by
  induction t generalizing depth place value with
  | int | builtin | global => rfl
  | var index tag =>
    have below : index < place := Nat.lt_of_lt_of_le inside outer
    rw [subst, if_pos below]
  | lam tag body ih => rw [subst, ih inside (Nat.succ_le_succ outer)]
  | app left right ihl ihr => rw [subst, ihl inside.1 outer, ihr inside.2 outer]

theorem Scoped.close_eq {t : Term} {values : List Term} {place : Nat} (inside : t.Scoped depth limit)
    (outer : depth ≤ place) : t.close values place = t := by
  induction t generalizing depth place with
  | int | builtin | global => rfl
  | var index tag =>
    have below : index < place := Nat.lt_of_lt_of_le inside outer
    rw [close, if_pos below]
  | lam tag body ih => rw [close, ih inside (Nat.succ_le_succ outer)]
  | app left right ihl ihr => rw [close, ihl inside.1 outer, ihr inside.2 outer]

/-- Closed terms for all free variables leave a closed term. -/
theorem Scoped.close_scoped {t : Term} {values : List Term}
    (inside : t.Scoped (depth + values.length) limit) (closed : ∀ value ∈ values, value.Scoped 0 limit) :
    (t.close values depth).Scoped depth limit := by
  induction t generalizing depth with
  | int | builtin => trivial
  | global => exact inside
  | var index tag =>
    unfold close
    split
    · next bound => exact bound
    · next free =>
      have known : index - depth < values.length := by
        have below : index < depth + values.length := inside
        omega
      rw [List.getElem?_eq_getElem known, Option.getD_some]
      exact (closed _ (List.getElem_mem known)).mono (Nat.zero_le _) (Nat.le_refl _)
  | lam tag body ih =>
    rw [lam_scoped, Nat.add_right_comm] at inside
    exact ih inside
  | app left right ihl ihr => exact ⟨ihl inside.1, ihr inside.2⟩

/-- Beta reduction in an environment: the argument becomes the innermost value. -/
theorem subst_close {t value : Term} {values : List Term}
    (inside : t.Scoped (depth + 1 + values.length) limit)
    (closed : ∀ value ∈ values, value.Scoped 0 limit) (argument : value.Scoped 0 limit) :
    (t.close values (depth + 1)).subst depth value = t.close (value :: values) depth := by
  induction t generalizing depth with
  | int | builtin | global => rfl
  | lam tag body ih =>
    have inner : body.Scoped (depth + 1 + 1 + values.length) limit := by
      rw [lam_scoped, Nat.add_right_comm] at inside
      exact inside
    simp only [close, subst]
    rw [argument.lift_eq (Nat.le_refl _), ih inner]
  | app left right ihl ihr =>
    simp only [close, subst]
    rw [ihl inside.1, ihr inside.2]
  | var index tag =>
    have below : index < depth + 1 + values.length := inside
    unfold close
    rcases Nat.lt_trichotomy index depth with bound | rfl | free
    · rw [if_pos (by omega), if_pos bound, subst, if_pos bound]
    · rw [if_pos (by omega), if_neg (by omega), subst, if_neg (by omega), if_pos rfl, Nat.sub_self]
      rfl
    · have known : index - (depth + 1) < values.length := by omega
      have shifted : index - depth = index - (depth + 1) + 1 := by omega
      rw [if_neg (by omega), if_neg (by omega), shifted, List.getElem?_cons_succ,
        List.getElem?_eq_getElem known, Option.getD_some]
      exact (closed _ (List.getElem_mem known)).subst_eq (Nat.zero_le _)

@[simp]
theorem close_applyAll (head : Term) (arguments values : List Term) (depth : Nat) :
    (head.applyAll arguments).close values depth =
      (head.close values depth).applyAll (arguments.map (·.close values depth)) := by
  induction arguments generalizing head with
  | nil => rfl
  | cons first rest ih => exact ih (head.app first)

end MixfixLambda.Term
