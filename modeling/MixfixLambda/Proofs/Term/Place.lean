import MixfixLambda.Term.Basic

/-!
# Places of terms

What a run can point to are the tags of variables, operations and references. A tag that is written in the
module has a place there, and a property of places is required of these tags only: the spans of the prelude
are counted from the start of another text.
-/
namespace MixfixLambda

/-- If the tag is written in the module, its place has the property. -/
def Tag.Within (places : Span → Prop) (tag : Tag) : Prop :=
  tag.origin = .module → places tag.span

variable {places : Span → Prop}

theorem Tag.within_of_origin {tag : Tag} (other : tag.origin ≠ .module) : tag.Within places :=
  fun module => absurd module other

@[simp]
theorem Tag.synthetic_within (text : String) : (Tag.synthetic text).Within places :=
  fun module => by cases module

namespace Term

/-- The tags of all variables, operations and references. -/
def tags : Term → List Tag
  | .int _ => []
  | .builtin _ tag | .var _ tag | .global _ tag => [tag]
  | .lam _ body => body.tags
  | .app left right => left.tags ++ right.tags

/-- The places of all variables, operations and references have the property. -/
def Within (places : Span → Prop) : Term → Prop
  | .int _ => True
  | .builtin _ tag | .var _ tag | .global _ tag => tag.Within places
  | .lam _ body => body.Within places
  | .app left right => left.Within places ∧ right.Within places

@[simp]
theorem int_within (value : Int) : (Term.int value).Within places :=
  trivial

@[simp]
theorem builtin_within (operation : Builtin) (tag : Tag) :
    (Term.builtin operation tag).Within places ↔ tag.Within places :=
  Iff.rfl

@[simp]
theorem var_within (depth : Nat) (tag : Tag) : (Term.var depth tag).Within places ↔ tag.Within places :=
  Iff.rfl

@[simp]
theorem global_within (index : Nat) (tag : Tag) : (Term.global index tag).Within places ↔ tag.Within places :=
  Iff.rfl

@[simp]
theorem lam_within (tag : Tag) (body : Term) : (Term.lam tag body).Within places ↔ body.Within places :=
  Iff.rfl

@[simp]
theorem app_within (left right : Term) :
    (Term.app left right).Within places ↔ left.Within places ∧ right.Within places :=
  Iff.rfl

@[simp]
theorem applyAll_within (head : Term) (arguments : List Term) :
    (head.applyAll arguments).Within places ↔ head.Within places ∧ ∀ t ∈ arguments, t.Within places := by
  induction arguments generalizing head with
  | nil => simp [applyAll]
  | cons first rest ih =>
    have next := ih (head.app first)
    simp only [applyAll, List.foldl_cons] at next ⊢
    rw [next, app_within, List.forall_mem_cons, and_assoc]

@[simp]
theorem lams_within (tags : List Tag) (body : Term) : (lams tags body).Within places ↔ body.Within places := by
  induction tags with
  | nil => rfl
  | cons tag rest ih => exact ih

theorem within_iff {t : Term} : t.Within places ↔ ∀ tag ∈ t.tags, tag.Within places := by
  induction t with
  | int => simp [tags]
  | builtin | var | global => simp [tags]
  | lam tag body ih => exact ih
  | app left right ihl ihr => simp only [app_within, tags, List.forall_mem_append, ihl, ihr]

end Term

end MixfixLambda
