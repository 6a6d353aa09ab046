import Mathlib.Logic.Relation
import MixfixLambda.Proofs.Term.Subst

/-!
# Beta reduction

Beta reduction at any place of a term, and substitution for several variables at once, where the terms put
in may be open. A function of several variables reduces, when it has all of its arguments, to its body with
the arguments put in together.
-/
namespace MixfixLambda.Term

open Relation

/-- One beta step at some place of a term. -/
inductive Beta : Term → Term → Prop where
  | contract (tag : Tag) (body argument : Term) : Beta (.app (.lam tag body) argument) (body.subst 0 argument)
  | left {t t' : Term} (argument : Term) : Beta t t' → Beta (.app t argument) (.app t' argument)
  | right {t t' : Term} (function : Term) : Beta t t' → Beta (.app function t) (.app function t')
  | under {t t' : Term} (tag : Tag) : Beta t t' → Beta (.lam tag t) (.lam tag t')

/-- Any number of beta steps. -/
def BetaReduces : Term → Term → Prop :=
  ReflTransGen Beta

/-- The term with `values` for its innermost variables, the first one for the innermost, where `depth` of its
own binders have been passed. The binders of the variables go away. -/
def substAll (values : List Term) (depth : Nat) : Term → Term
  | .var index tag =>
    if index < depth then .var index tag
    else (values[index - depth]?).getD (.var (index - values.length) tag)
  | .lam tag body => .lam tag (body.substAll (values.map (lift 0)) (depth + 1))
  | .app left right => .app (left.substAll values depth) (right.substAll values depth)
  | t => t

section Substitution

variable {depth limit : Nat}

theorem lift_lift (t : Term) {low high : Nat} (ordered : low ≤ high) :
    (t.lift high).lift low = (t.lift low).lift (high + 1) := by
  induction t generalizing low high with
  | int | builtin | global => rfl
  | var index tag => grind [lift]
  | lam tag body ih =>
    simp only [lift]
    rw [ih (Nat.succ_le_succ ordered)]
  | app left right ihl ihr =>
    simp only [lift]
    rw [ihl ordered, ihr ordered]

/-- No variable is left to be replaced after a binder was put around the term. -/
theorem subst_lift (t value : Term) (place : Nat) : (t.lift place).subst place value = t := by
  induction t generalizing place value with
  | int | builtin | global => rfl
  | var index tag => grind [lift, subst]
  | lam tag body ih => rw [lift, subst, ih]
  | app left right ihl ihr => rw [lift, subst, ihl, ihr]

@[simp]
theorem substAll_nil (t : Term) (depth : Nat) : t.substAll [] depth = t := by
  induction t generalizing depth with
  | int | builtin | global => rfl
  | var index tag => simp [substAll]
  | lam tag body ih => rw [substAll, List.map_nil, ih]
  | app left right ihl ihr => rw [substAll, ihl, ihr]

theorem Scoped.substAll_eq {t : Term} {values : List Term} {place : Nat} (inside : t.Scoped depth limit)
    (outer : depth ≤ place) : t.substAll values place = t := by
  induction t generalizing depth place values with
  | int | builtin | global => rfl
  | var index tag =>
    have below : index < place := Nat.lt_of_lt_of_le inside outer
    rw [substAll, if_pos below]
  | lam tag body ih => rw [substAll, ih inside (Nat.succ_le_succ outer)]
  | app left right ihl ihr => rw [substAll, ihl inside.1 outer, ihr inside.2 outer]

@[simp]
theorem substAll_applyAll (head : Term) (arguments values : List Term) (depth : Nat) :
    (head.applyAll arguments).substAll values depth =
      (head.substAll values depth).applyAll (arguments.map (·.substAll values depth)) := by
  induction arguments generalizing head with
  | nil => rfl
  | cons first rest ih => exact ih (head.app first)

/-- Beta reduction under several values: the argument becomes the innermost one. -/
theorem subst_substAll (t value : Term) (values : List Term) (depth : Nat) :
    (t.substAll (values.map (lift depth)) (depth + 1)).subst depth value =
      t.substAll (value :: values) depth := by
  induction t generalizing depth value values with
  | int | builtin | global => rfl
  | app left right ihl ihr =>
    simp only [substAll, subst]
    rw [ihl, ihr]
  | lam tag body ih =>
    have lifted : (values.map (lift depth)).map (lift 0) = (values.map (lift 0)).map (lift (depth + 1)) := by
      simp only [List.map_map]
      exact List.map_congr_left fun t _ => lift_lift t (Nat.zero_le depth)
    simp only [substAll, subst, List.map_cons]
    rw [lifted, ih]
  | var index tag =>
    rcases Nat.lt_trichotomy index depth with bound | rfl | free
    · rw [substAll, if_pos (by omega), substAll, if_pos bound, subst, if_pos bound]
    · simp [substAll, subst]
    · have shifted : index - depth = index - (depth + 1) + 1 := by omega
      rw [substAll, if_neg (by omega), substAll, if_neg (by omega), shifted, List.getElem?_cons_succ,
        List.getElem?_map, List.length_map, List.length_cons]
      cases known : values[index - (depth + 1)]? with
      | some value => exact subst_lift value _ depth
      | none =>
        have above : values.length ≤ index - (depth + 1) := List.getElem?_eq_none_iff.mp known
        simp only [Option.map_none, Option.getD_none]
        rw [subst, if_neg (by omega), if_neg (by omega), Nat.sub_sub]

end Substitution

namespace BetaReduces

variable {t t' u : Term}

theorem refl (t : Term) : BetaReduces t t :=
  ReflTransGen.refl

theorem trans (first : BetaReduces t t') (second : BetaReduces t' u) : BetaReduces t u :=
  ReflTransGen.trans first second

theorem app (reduces : BetaReduces t t') (argument : Term) :
    BetaReduces (.app t argument) (.app t' argument) :=
  reduces.lift (Term.app · argument) fun _ _ => Beta.left argument

theorem applyAll (reduces : BetaReduces t t') (arguments : List Term) :
    BetaReduces (t.applyAll arguments) (t'.applyAll arguments) := by
  induction arguments generalizing t t' with
  | nil => exact reduces
  | cons first rest ih => exact ih (reduces.app first)

/-- A function whose outer variables have their values takes one value more. -/
theorem contract (tag : Tag) (body argument : Term) (values : List Term) :
    BetaReduces (.app ((Term.lam tag body).substAll values 0) argument)
      (body.substAll (argument :: values) 0) := by
  rw [← subst_substAll]
  exact ReflTransGen.single (Beta.contract tag _ argument)

/-- A function of several variables with a value for each of them: the last argument is the innermost. -/
theorem lams (tags : List Tag) (body : Term) (arguments values : List Term)
    (full : arguments.length = tags.length) :
    BetaReduces (((Term.lams tags body).substAll values 0).applyAll arguments)
      (body.substAll (arguments.reverse ++ values) 0) := by
  induction tags generalizing arguments values with
  | nil =>
    rw [List.length_nil, List.length_eq_zero_iff] at full
    rw [full]
    exact refl _
  | cons tag rest ih =>
    obtain ⟨first, others, rfl⟩ := List.exists_cons_of_length_eq_add_one full
    have next := ih others (first :: values) (Nat.succ.inj full)
    rw [List.reverse_cons, List.append_assoc]
    exact ((contract tag _ first values).applyAll others).trans next

end BetaReduces

end MixfixLambda.Term
