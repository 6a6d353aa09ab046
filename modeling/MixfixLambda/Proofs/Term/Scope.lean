import MixfixLambda.Term.Basic

/-!
# Scopes of terms

A term is scoped when every variable has a binder, counting a given number of binders around the term,
and every global lies below a given limit. A closed term has no binders around it.
-/
namespace MixfixLambda.Term

/-- Every variable is bound inside the term or by one of `depth` binders around it, and every reference
is to one of the first `limit` globals. -/
def Scoped (depth limit : Nat) : Term → Prop
  | .int _ | .builtin .. => True
  | .var index _ => index < depth
  | .global index _ => index < limit
  | .lam _ body => body.Scoped (depth + 1) limit
  | .app left right => left.Scoped depth limit ∧ right.Scoped depth limit

instance decidableScoped (depth limit : Nat) : (t : Term) → Decidable (t.Scoped depth limit)
  | .int _ | .builtin .. => inferInstanceAs (Decidable True)
  | .var index _ => inferInstanceAs (Decidable (index < depth))
  | .global index _ => inferInstanceAs (Decidable (index < limit))
  | .lam _ body => decidableScoped (depth + 1) limit body
  | .app left right =>
    haveI := decidableScoped depth limit left
    haveI := decidableScoped depth limit right
    inferInstanceAs (Decidable (_ ∧ _))

/-- Whether a reference to a global occurs in the term. -/
def RefersTo (t : Term) (index : Nat) : Prop :=
  ∃ tag, .global index tag ∈ t.nodes

/-- Whether an operation occurs in the term. -/
def Uses (t : Term) (operation : Builtin) : Prop :=
  ∃ tag, .builtin operation tag ∈ t.nodes

variable {depth limit : Nat}

@[simp]
theorem int_scoped (value : Int) : (Term.int value).Scoped depth limit :=
  trivial

@[simp]
theorem builtin_scoped (operation : Builtin) (tag : Tag) :
    (Term.builtin operation tag).Scoped depth limit :=
  trivial

@[simp]
theorem var_scoped (index : Nat) (tag : Tag) :
    (Term.var index tag).Scoped depth limit ↔ index < depth :=
  Iff.rfl

@[simp]
theorem global_scoped (index : Nat) (tag : Tag) :
    (Term.global index tag).Scoped depth limit ↔ index < limit :=
  Iff.rfl

@[simp]
theorem lam_scoped (tag : Tag) (body : Term) :
    (Term.lam tag body).Scoped depth limit ↔ body.Scoped (depth + 1) limit :=
  Iff.rfl

@[simp]
theorem app_scoped (left right : Term) :
    (Term.app left right).Scoped depth limit ↔
      left.Scoped depth limit ∧ right.Scoped depth limit :=
  Iff.rfl

/-- More binders around a term and more globals leave it scoped. -/
theorem Scoped.mono {t : Term} {depth' limit' : Nat} (inside : t.Scoped depth limit)
    (deeper : depth ≤ depth') (longer : limit ≤ limit') : t.Scoped depth' limit' := by
  induction t generalizing depth depth' with
  | int | builtin => trivial
  | var index => exact Nat.lt_of_lt_of_le inside deeper
  | global index => exact Nat.lt_of_lt_of_le inside longer
  | lam tag body ih => exact ih inside (Nat.succ_le_succ deeper)
  | app left right ihl ihr => exact ⟨ihl inside.1 deeper, ihr inside.2 deeper⟩

theorem applyAll_scoped (head : Term) (arguments : List Term) :
    (head.applyAll arguments).Scoped depth limit ↔
      head.Scoped depth limit ∧ ∀ t ∈ arguments, t.Scoped depth limit := by
  induction arguments generalizing head with
  | nil => simp [applyAll]
  | cons first rest ih =>
    have next := ih (head.app first)
    simp only [applyAll, List.foldl_cons] at next ⊢
    rw [next, app_scoped, List.forall_mem_cons, and_assoc]

theorem lams_scoped (tags : List Tag) (body : Term) :
    (lams tags body).Scoped depth limit ↔ body.Scoped (depth + tags.length) limit := by
  induction tags generalizing depth with
  | nil => simp [lams]
  | cons tag rest ih =>
    have inner := @ih (depth + 1)
    simp only [lams, List.foldr_cons, lam_scoped, List.length_cons] at inner ⊢
    rw [inner, Nat.add_right_comm, Nat.add_assoc]

/-- A scoped term refers to no global above the limit. -/
theorem Scoped.refersTo_lt {t : Term} {index : Nat} (inside : t.Scoped depth limit)
    (refers : t.RefersTo index) : index < limit := by
  obtain ⟨tag, found⟩ := refers
  induction t generalizing depth with
  | int | builtin | var => simp [nodes] at found
  | global other otherTag =>
    simp only [nodes, List.mem_singleton, global.injEq] at found
    exact found.1 ▸ inside
  | lam binder body ih =>
    simp only [nodes, List.mem_cons, reduceCtorEq, false_or] at found
    exact ih inside found
  | app left right ihl ihr =>
    simp only [nodes, List.mem_cons, reduceCtorEq, List.mem_append, false_or] at found
    rcases found with found | found
    · exact ihl inside.1 found
    · exact ihr inside.2 found

/-- A term occurs in another one, beneath so many of its abstractions. -/
inductive Beneath : Nat → Term → Term → Prop
  | here (t : Term) : Beneath 0 t t
  | body {count : Nat} {t body : Term} (tag : Tag) (inner : Beneath count t body) :
      Beneath (count + 1) t (.lam tag body)
  | left {count : Nat} {t left : Term} (right : Term) (inner : Beneath count t left) :
      Beneath count t (.app left right)
  | right {count : Nat} {t right : Term} (left : Term) (inner : Beneath count t right) :
      Beneath count t (.app left right)

/-- A part of a scoped term is scoped under the abstractions around it. -/
theorem Scoped.beneath {whole t : Term} {depth limit count : Nat} (inside : whole.Scoped depth limit)
    (occurs : t.Beneath count whole) : t.Scoped (depth + count) limit := by
  induction occurs generalizing depth with
  | here => exact inside
  | body tag inner ih =>
    have under := ih inside
    rwa [Nat.add_right_comm, Nat.add_assoc] at under
  | left right inner ih => exact ih inside.1
  | right left inner ih => exact ih inside.2

/-- A closed term binds its own variables and refers to nothing above a limit. -/
theorem Scoped.occurrences {whole : Term} {limit count : Nat} (closed : whole.Scoped 0 limit) :
    (∀ index tag, (Term.var index tag).Beneath count whole → index < count) ∧
      ∀ index tag, (Term.global index tag).Beneath count whole → index < limit := by
  refine ⟨fun index tag occurs => ?_, fun index tag occurs => closed.beneath occurs⟩
  have under : index < 0 + count := closed.beneath occurs
  rwa [Nat.zero_add] at under

end MixfixLambda.Term
