import MixfixLambda.Machine.Step
import MixfixLambda.Proofs.Term.Subst

/-!
# Call-by-name reduction

Weak head reduction of terms by substitution, with nothing shared: a global becomes its definition, an
abstraction that is applied takes its argument as it stands, a numeral that is applied becomes a function,
and an operation with all of its arguments reduces them from left to right. What a numeral becomes is a
parameter, since the machine unfolds numerals one layer later than they are written as functions.
-/
namespace MixfixLambda.ByName

/-- The numeral `n` as a function: `\f x -> f ((n - 1) f x)`, or `\f x -> x` from zero on down. -/
def church (n : Int) : Term :=
  if n > 0 then
    .lams [.synthetic "f", .synthetic "x"]
      (.app (Builtin.v 1 "f") (.applyAll (.int (n - 1)) [Builtin.v 1 "f", Builtin.v 0 "x"]))
  else .lams [.synthetic "f", .synthetic "x"] (Builtin.v 0 "x")

/-- What a value applied to an argument becomes. -/
def contract (numeral : Int → Term) (left right : Term) : Option Term :=
  match left with
  | .lam _ body => some (body.subst 0 right)
  | .int n => some (.app (numeral n) right)
  | _ => none

/-- What an operation on two terms becomes: the first one that is no integer goes on, as far as it can,
and two integers are replaced by the result. -/
def operate (operation : Builtin) (tag : Tag) (first second : Term) (first? second? : Option Term) :
    Option Term :=
  match first with
  | .int a =>
    match second with
    | .int b => (operation.binary a b).toOption
    | _ => second?.map fun second => .app (.app (.builtin operation tag) (.int a)) second
  | _ => first?.map fun first => .app (.app (.builtin operation tag) first) second

/-- One reduction at the head of a term, if there is one. -/
def step (numeral : Int → Term) (globals : Array Global) : Term → Option Term
  | .global index _ => (globals[index]?).map Global.term
  | .app (.app (.builtin operation tag) first) second =>
    if operation.arity = 2 then
      operate operation tag first second (step numeral globals first) (step numeral globals second)
    else none
  | .app left right =>
    match step numeral globals left with
    | some left => some (.app left right)
    | none => contract numeral left right
  | _ => none

/-- Reduces as long as there is a reduction, but at most so many times. -/
def eval (numeral : Int → Term) (globals : Array Global) : Nat → Term → Term
  | 0, t => t
  | count + 1, t =>
    match step numeral globals t with
    | some t => eval numeral globals count t
    | none => t

section Rules

variable {numeral : Int → Term} {globals : Array Global} {operation : Builtin} {tag : Tag}
  {left right first second t t' u : Term}

/-- An operation with one argument of two is not reduced. -/
@[simp]
theorem step_held : step numeral globals (.app (.builtin operation tag) first) = none :=
  rfl

theorem step_operation (two : operation.arity = 2) :
    step numeral globals (.app (.app (.builtin operation tag) first) second) =
      operate operation tag first second (step numeral globals first) (step numeral globals second) := by
  rw [step, if_pos two]

theorem step_app (plain : ∀ operation tag first, left = .app (.builtin operation tag) first → False)
    (right : Term) :
    step numeral globals (.app left right) = match step numeral globals left with
      | some left => some (.app left right)
      | none => contract numeral left right := by
  rw [step]
  exact plain

theorem step_left (reduces : step numeral globals left = some t) (right : Term) :
    step numeral globals (.app left right) = some (.app t right) := by
  rw [step_app, reduces]
  rintro operation tag first rfl
  rw [step_held] at reduces
  cases reduces

theorem step_lam (body right : Term) :
    step numeral globals (.app (.lam tag body) right) = some (body.subst 0 right) :=
  rfl

theorem step_numeral (n : Int) (right : Term) :
    step numeral globals (.app (.int n) right) = some (.app (numeral n) right) :=
  rfl

theorem step_first (two : operation.arity = 2) (reduces : step numeral globals first = some t)
    (second : Term) :
    step numeral globals (.app (.app (.builtin operation tag) first) second) =
      some (.app (.app (.builtin operation tag) t) second) := by
  rw [step_operation two, reduces]
  cases first with
  | int a => cases reduces
  | _ => rfl

theorem step_second {a : Int} (two : operation.arity = 2) (reduces : step numeral globals second = some t) :
    step numeral globals (.app (.app (.builtin operation tag) (.int a)) second) =
      some (.app (.app (.builtin operation tag) (.int a)) t) := by
  rw [step_operation two, reduces]
  cases second with
  | int b => cases reduces
  | _ => rfl

theorem step_compute {a b : Int} (two : operation.arity = 2) :
    step numeral globals (.app (.app (.builtin operation tag) (.int a)) (.int b)) =
      (operation.binary a b).toOption := by
  rw [step_operation two]
  rfl

end Rules

/-- So many reductions lead from one term to another. -/
inductive Takes (numeral : Int → Term) (globals : Array Global) : Nat → Term → Term → Prop
  | refl (t : Term) : Takes numeral globals 0 t t
  | head {count : Nat} {t u v : Term} (first : step numeral globals t = some u)
      (rest : Takes numeral globals count u v) : Takes numeral globals (count + 1) t v

namespace Takes

variable {numeral : Int → Term} {globals : Array Global} {count more : Nat} {t u v : Term}

theorem single (first : step numeral globals t = some u) : Takes numeral globals 1 t u :=
  .head first (.refl u)

theorem eq_of_zero (takes : Takes numeral globals 0 t u) : t = u := by
  cases takes
  rfl

theorem trans (first : Takes numeral globals count t u) (second : Takes numeral globals more u v) :
    Takes numeral globals (count + more) t v := by
  induction first with
  | refl t => rwa [Nat.zero_add]
  | head first _ ih =>
    rw [Nat.add_right_comm]
    exact .head first (ih second)

/-- Reductions take place in every context that a single one takes place in. -/
theorem congr {context : Term → Term}
    (inside : ∀ t u, step numeral globals t = some u → step numeral globals (context t) = some (context u))
    (takes : Takes numeral globals count t u) : Takes numeral globals count (context t) (context u) := by
  induction takes with
  | refl t => exact .refl _
  | head first _ ih => exact .head (inside _ _ first) ih

/-- Reduction is deterministic: on the way to a term that is not reduced every other way is a part. -/
theorem within (takes : Takes numeral globals count t u) (normal : step numeral globals u = none)
    (other : Takes numeral globals more t v) :
    more ≤ count ∧ Takes numeral globals (count - more) v u := by
  induction other generalizing count with
  | refl t => exact ⟨Nat.zero_le _, takes⟩
  | head first _ ih =>
    cases takes with
    | refl => rw [first] at normal; cases normal
    | head first' rest =>
      rw [first] at first'
      cases first'
      obtain ⟨fewer, rest⟩ := ih rest
      refine ⟨Nat.succ_le_succ fewer, ?_⟩
      rwa [Nat.add_sub_add_right]

theorem eval_eq (takes : Takes numeral globals count t u) : eval numeral globals count t = u := by
  induction takes with
  | refl t => rfl
  | head first _ ih =>
    rw [eval, first]
    exact ih

end Takes

theorem takes_eval (numeral : Int → Term) (globals : Array Global) (count : Nat) (t : Term) :
    ∃ used, Takes numeral globals used t (eval numeral globals count t) := by
  induction count generalizing t with
  | zero => exact ⟨0, .refl t⟩
  | succ count ih =>
    unfold eval
    split
    · next u first =>
      obtain ⟨used, rest⟩ := ih u
      exact ⟨used + 1, .head first rest⟩
    · exact ⟨0, .refl t⟩

/-- Evaluation reaches exactly what reductions lead to. -/
theorem exists_eval_eq_iff {numeral : Int → Term} {globals : Array Global} {t u : Term} :
    (∃ count, eval numeral globals count t = u) ↔ ∃ count, Takes numeral globals count t u := by
  constructor
  · rintro ⟨count, rfl⟩
    exact takes_eval numeral globals count t
  · rintro ⟨count, takes⟩
    exact ⟨count, takes.eval_eq⟩

end MixfixLambda.ByName
