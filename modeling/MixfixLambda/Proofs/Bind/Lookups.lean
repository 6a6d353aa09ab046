import MixfixLambda.Proofs.Bind.Place
import MixfixLambda.Proofs.Bind.Restore
import MixfixLambda.Proofs.Bind.Sections

/-!
# Names that binding looks up

Whether a definition is recursive is decided before its body is bound, by another walk over the tree. The names that
binding looks up are collected here by a third one, with the shape of `Tree.bind`: what a bound term refers to has been
looked up and is not in scope, and what has been looked up is mentioned. So a definition never takes an older global of
its own name for itself.
-/
namespace MixfixLambda

namespace Tree

mutual

/-- The tags that binding a tree looks up. Patterns and the heads of definitions bind names without looking them up. -/
def lookups : Tree → List Tag
  | .name tag => [tag]
  | .placeholder span => [⟨sectionName, span, .synthetic⟩]
  | .apply function argument _ => function.lookups ++ argument.lookups
  | .infixOp operator left right => (operator :: left.lookups) ++ right.lookups
  | .prefixOp operator operand | .postfixOp operator operand => operator :: operand.lookups
  | .mixfix parts operands => mixfixTag parts :: lookupsEach operands
  | .bracket opening closing content => bracketTag opening closing :: content.lookups
  | .define _ _ body | .lambda _ _ body | .sectionOf body _ => body.lookups
  | .sequence items _ | .comma items _ | .tuple items _ | .list items _ => lookupsEach items
  | .int .. | .char .. | .str .. | .unit _ | .data .. | .asPattern .. | .declaration _ => []

def lookupsEach : List Tree → List Tag
  | [] => []
  | t :: rest => t.lookups ++ lookupsEach rest

end

theorem lookupsEach_declarations {items : List Tree} (declarations : items.all isDeclaration = true) :
    lookupsEach items = [] := by
  induction items with
  | nil => rfl
  | cons t rest ih =>
    rw [List.all_cons, Bool.and_eq_true] at declarations
    rw [lookupsEach, ih declarations.2]
    cases t with
    | declaration d => rfl
    | _ => cases declarations.1

mutual

/-- What binding looks up is mentioned, except for the hidden operand of a section. -/
theorem lookups_mentioned (t : Tree) {tag : Tag} (looked : tag ∈ t.lookups) (visible : tag.text ≠ sectionName) :
    t.mentions tag.text = true := by
  match t with
  | .name here =>
    rw [lookups, List.mem_singleton] at looked
    rw [mentions, looked, beq_self_eq_true]
  | .placeholder span =>
    rw [lookups, List.mem_singleton] at looked
    exact absurd (congrArg Tag.text looked) visible
  | .apply function argument _ =>
    rw [lookups, List.mem_append] at looked
    rw [mentions, Bool.or_eq_true]
    exact looked.imp (fun inner => lookups_mentioned function inner visible)
      fun inner => lookups_mentioned argument inner visible
  | .infixOp operator left right =>
    rw [lookups, List.mem_append, List.mem_cons] at looked
    rw [mentions, Bool.or_eq_true, Bool.or_eq_true, beq_iff_eq]
    exact looked.imp (Or.imp (fun same => by rw [same]) fun inner => lookups_mentioned left inner visible)
      fun inner => lookups_mentioned right inner visible
  | .prefixOp operator operand | .postfixOp operator operand =>
    rw [lookups, List.mem_cons] at looked
    rw [mentions, Bool.or_eq_true, beq_iff_eq]
    exact looked.imp (fun same => by rw [same]) fun inner => lookups_mentioned operand inner visible
  | .mixfix parts operands =>
    rw [lookups, List.mem_cons] at looked
    rw [mentions, Bool.or_eq_true, beq_iff_eq]
    exact looked.imp (fun same => by rw [same]; rfl) fun inner => lookupsEach_mentioned operands inner visible
  | .bracket opening closing content =>
    rw [lookups, List.mem_cons] at looked
    rw [mentions, Bool.or_eq_true, beq_iff_eq]
    exact looked.imp (fun same => by rw [same]; rfl) fun inner => lookups_mentioned content inner visible
  | .define _ pattern body | .lambda _ pattern body =>
    rw [lookups] at looked
    rw [mentions, Bool.or_eq_true]
    exact .inr (lookups_mentioned body looked visible)
  | .sectionOf body _ =>
    rw [lookups] at looked
    rw [mentions]
    exact lookups_mentioned body looked visible
  | .sequence items _ | .comma items _ | .tuple items _ | .list items _ =>
    rw [lookups] at looked
    rw [mentions]
    exact lookupsEach_mentioned items looked visible
  | .int .. | .char .. | .str .. | .unit _ | .data .. | .asPattern .. | .declaration _ =>
    rw [lookups] at looked
    exact absurd looked List.not_mem_nil

theorem lookupsEach_mentioned (items : List Tree) {tag : Tag} (looked : tag ∈ lookupsEach items)
    (visible : tag.text ≠ sectionName) : anyMentions tag.text items = true := by
  match items with
  | [] => exact absurd looked List.not_mem_nil
  | t :: rest =>
    rw [lookupsEach, List.mem_append] at looked
    rw [anyMentions, Bool.or_eq_true]
    exact looked.imp (fun inner => lookups_mentioned t inner visible)
      fun inner => lookupsEach_mentioned rest inner visible

end

end Tree

namespace Term

/-- The tags of all operations and references, which stand for something outside the term. -/
def references : Term → List Tag
  | .int _ | .var .. => []
  | .builtin _ tag | .global _ tag => [tag]
  | .lam _ body => body.references
  | .app left right => left.references ++ right.references

theorem references_part {t node : Term} (inside : node ∈ t.nodes) : node.references ⊆ t.references := by
  induction t with
  | lam name body ih =>
    rcases List.mem_cons.1 inside with rfl | inside
    · exact List.Subset.refl _
    · exact ih inside
  | app left right ihl ihr =>
    rcases List.mem_cons.1 inside with rfl | inside
    · exact List.Subset.refl _
    rcases List.mem_append.1 inside with inside | inside
    · exact List.Subset.trans (ihl inside) (List.subset_append_left _ _)
    · exact List.Subset.trans (ihr inside) (List.subset_append_right _ _)
  | _ =>
    rw [List.mem_singleton.1 inside]
    exact List.Subset.refl _

/-- A tag is that of a variable, or of something outside. -/
theorem var_or_referenced {t : Term} {tag : Tag} (inside : tag ∈ t.tags) :
    (∃ depth, .var depth tag ∈ t.nodes) ∨ tag ∈ t.references := by
  induction t with
  | lam name body ih =>
    exact (ih inside).imp_left fun ⟨depth, inner⟩ => ⟨depth, List.mem_cons_of_mem _ inner⟩
  | app left right ihl ihr =>
    rcases List.mem_append.1 inside with inside | inside
    · exact (ihl inside).imp (fun ⟨depth, inner⟩ => ⟨depth, List.mem_cons_of_mem _ (List.mem_append_left _ inner)⟩)
        (List.mem_append_left _)
    · exact (ihr inside).imp (fun ⟨depth, inner⟩ => ⟨depth, List.mem_cons_of_mem _ (List.mem_append_right _ inner)⟩)
        (List.mem_append_right _)
  | _ => simp_all [nodes, references, tags]

/-- What is collected from both sides of an application is collected from all arguments. -/
theorem collect_applyAll {collect : Term → List Tag}
    (apart : ∀ left right, collect (.app left right) = collect left ++ collect right) (head : Term)
    (arguments : List Term) : collect (head.applyAll arguments) = collect head ++ arguments.flatMap collect := by
  induction arguments generalizing head with
  | nil => simp [applyAll]
  | cons first rest ih =>
    have next := ih (head.app first)
    simp only [applyAll, List.foldl_cons] at next ⊢
    rw [next, apart, List.append_assoc, List.flatMap_cons]

@[simp]
theorem references_applyAll (head : Term) (arguments : List Term) :
    (head.applyAll arguments).references = head.references ++ arguments.flatMap references :=
  collect_applyAll (fun _ _ => rfl) head arguments

@[simp]
theorem tags_applyAll (head : Term) (arguments : List Term) :
    (head.applyAll arguments).tags = head.tags ++ arguments.flatMap tags :=
  collect_applyAll (fun _ _ => rfl) head arguments

@[simp]
theorem references_lams (names : List Tag) (body : Term) : (lams names body).references = body.references := by
  induction names with
  | nil => rfl
  | cons name rest ih => exact ih

end Term

namespace Encoding

@[simp]
theorem references_v (depth : Nat) (text : String) : (v depth text).references = [] :=
  rfl

@[simp]
theorem references_fn (names : List String) (body : Term) : (fn names body).references = body.references :=
  Term.references_lams _ _

@[simp]
theorem references_vars (names : List String) (above : Nat) : (vars names above).flatMap Term.references = [] := by
  refine List.flatMap_eq_nil_iff.2 fun t member => ?_
  obtain ⟨i, bound, rfl⟩ := List.mem_iff_getElem.1 member
  simp [vars]

theorem references_tuple (arity : Nat) : (tuple arity).references = [] := by
  simp [tuple]

theorem references_projection (arity index : Nat) : (projection arity index).references = [] := by
  simp [projection, Term.references]

theorem list_cons (head : Term) (rest : List Term) : list (head :: rest) = .applyAll cons [head, list rest] :=
  rfl

theorem references_list (items : List Term) : (list items).references = items.flatMap Term.references := by
  induction items with
  | nil => rfl
  | cons head rest ih =>
    rw [list_cons, Term.references_applyAll]
    simp [cons, ih]

theorem tags_list {items : List Term} {tag : Tag} (inside : tag ∈ items.flatMap Term.tags) :
    tag ∈ (list items).tags := by
  induction items with
  | nil => exact absurd inside List.not_mem_nil
  | cons head rest ih =>
    rw [List.flatMap_cons, List.mem_append] at inside
    rw [list_cons, Term.tags_applyAll]
    simpa using .inr (inside.imp_right ih)

theorem references_string (bytes : List UInt8) : (string bytes).references = [] := by
  rw [string, references_list]
  simp [Term.references]

end Encoding

namespace Pattern

mutual

theorem references_abstract (body : Term) (pattern : Pattern) :
    (abstract body pattern).references = body.references := by
  match pattern with
  | .name tag => rfl
  | .unit => rfl
  | .tuple items =>
    simp [abstract, Term.references, references_abstractAll body items, Encoding.references_projection]
  | .asPattern tag pattern =>
    simp [abstract, Term.references, references_abstract body pattern]

theorem references_abstractAll (body : Term) (patterns : List Pattern) :
    (abstractAll body patterns).references = body.references := by
  match patterns with
  | [] => rfl
  | pattern :: rest => rw [abstractAll, references_abstract, references_abstractAll]

end

mutual

theorem tags_abstract {body : Term} {tag : Tag} (inside : tag ∈ body.tags) (pattern : Pattern) :
    tag ∈ (abstract body pattern).tags := by
  match pattern with
  | .name _ => exact inside
  | .unit => exact inside
  | .tuple items =>
    rw [abstract, Term.tags, Term.tags_applyAll]
    exact List.mem_append_left _ (tags_abstractAll inside items)
  | .asPattern _ pattern => exact List.mem_append_left _ (tags_abstract inside pattern)

theorem tags_abstractAll {body : Term} {tag : Tag} (inside : tag ∈ body.tags) (patterns : List Pattern) :
    tag ∈ (abstractAll body patterns).tags := by
  match patterns with
  | [] => exact inside
  | pattern :: rest => exact tags_abstract (tags_abstractAll inside rest) pattern

end

end Pattern

/-- What has become of names in a scope: all references were looked up and have the name of nothing in scope, and
every name that was looked up has left its tag. -/
structure Traced (looked scope references tags : List Tag) : Prop where
  reference : ∀ g ∈ references, g ∈ looked
  outside : ∀ g ∈ references, ∀ outer ∈ scope, outer.text ≠ g.text
  occurs : ∀ tag ∈ looked, tag ∈ tags

namespace Traced

variable {looked looked' scope scope' references references' tags tags' : List Tag}

theorem none : Traced [] scope [] tags :=
  ⟨by simp, by simp, by simp⟩

theorem append (first : Traced looked scope references tags) (second : Traced looked' scope references' tags') :
    Traced (looked ++ looked') scope (references ++ references') (tags ++ tags') where
  reference g inside := List.mem_append.2 ((List.mem_append.1 inside).imp (first.reference g) (second.reference g))
  outside := List.forall_mem_append.2 ⟨first.outside, second.outside⟩
  occurs tag inside := List.mem_append.2 ((List.mem_append.1 inside).imp (first.occurs tag) (second.occurs tag))

/-- The same in part of the scope, as part of a larger term. -/
theorem mono (whole : Traced looked scope references tags) (less : scope' ⊆ scope) (more : tags ⊆ tags') :
    Traced looked scope' references tags' :=
  ⟨whole.reference, fun g inside outer known => whole.outside g inside outer (less known),
    fun tag inside => more (whole.occurs tag inside)⟩

/-- The order in which names are looked up does not matter. -/
theorem swap (whole : Traced (looked ++ looked') scope references tags) :
    Traced (looked' ++ looked) scope references tags :=
  ⟨fun g inside => List.mem_append.2 (List.mem_append.1 (whole.reference g inside)).symm, whole.outside,
    fun tag inside => whole.occurs tag (List.mem_append.2 (List.mem_append.1 inside).symm)⟩

end Traced

/-- A term that names in a scope have become. -/
abbrev Term.Refers (looked scope : List Tag) (t : Term) : Prop :=
  Traced looked scope t.references t.tags

/-- Several terms. -/
abbrev Term.ReferAll (looked scope : List Tag) (ts : List Term) : Prop :=
  Traced looked scope (ts.flatMap Term.references) (ts.flatMap Term.tags)

namespace Term.Refers

variable {looked looked' scope : List Tag} {t : Term}

theorem closed (none : t.references = []) : t.Refers [] scope := by
  rw [Term.Refers, none]
  exact .none

theorem applyAll {head : Term} {arguments : List Term} (first : head.Refers looked scope)
    (others : ReferAll looked' scope arguments) : (head.applyAll arguments).Refers (looked ++ looked') scope := by
  rw [Term.Refers, references_applyAll, tags_applyAll]
  exact first.append others

theorem abstractAll (patterns : List Pattern) (inner : t.Refers looked scope) :
    (Pattern.abstractAll t patterns).Refers looked scope := by
  rw [Term.Refers, Pattern.references_abstractAll]
  exact inner.mono (List.Subset.refl _) fun _ inside => Pattern.tags_abstractAll inside patterns

theorem abstract (pattern : Pattern) (inner : t.Refers looked scope) :
    (pattern.abstract t).Refers looked scope := by
  rw [Term.Refers, Pattern.references_abstract]
  exact inner.mono (List.Subset.refl _) fun _ inside => Pattern.tags_abstract inside pattern

end Term.Refers

namespace BindM

open Binder

variable {α β : Type}

/-- Work that leaves the tables and the scope as they are, and whose result, if there is one, satisfies `post` at the
names in scope. -/
structure Answers (work : BindM α) (post : List Tag → α → Prop) : Prop where
  settled : work.Settled False
  post : ∀ b a b', work b = (.ok a, b') → post b.view.scope a

theorem Settled.view_eq {work : BindM α} (settled : work.Settled False) {b b' : Binder} {result : Except BindError α}
    (ran : work b = (result, b')) : b'.view = b.view := by
  obtain ⟨e, still, effect⟩ := settled b.view
  obtain ⟨globals, names⟩ := still id
  rw [effect b rfl] at ran
  cases ran
  rw [view_after, globals, names]

variable {work : BindM α} {post : List Tag → α → Prop}

theorem Answers.pure {a : α} (holds : ∀ scope, post scope a) : (Pure.pure a : BindM α).Answers post where
  settled := .pure a
  post := by
    rintro b _ _ ⟨⟩
    exact holds _

theorem Answers.bind {next : α → BindM β} {after : List Tag → β → Prop} (first : work.Answers post)
    (second : ∀ a, (next a).Answers fun scope result => post scope a → after scope result) :
    (work >>= next).Answers after where
  settled := first.settled.bind fun a => (second a).settled
  post := by
    intro b result b' success
    obtain ⟨a, middle, outcome, success⟩ := bind_success success
    have holds := (second a).post middle result b' success
    rw [first.settled.view_eq outcome] at holds
    exact holds (first.post b a middle outcome)

/-- Work of whose result nothing is asked. -/
theorem Settled.answers (settled : work.Settled False) : work.Answers fun _ _ => True :=
  ⟨settled, fun _ _ _ _ => trivial⟩

theorem Answers.mono {weaker : List Tag → α → Prop} (strong : work.Answers post)
    (implies : ∀ scope a, post scope a → weaker scope a) : work.Answers weaker :=
  ⟨strong.settled, fun b a b' success => implies _ _ (strong.post b a b' success)⟩

theorem refuse_answers {cause : BindCause} {span : Span} : (refuse cause span : BindM α).Answers post where
  settled := refuse_settled cause span
  post := by rintro b a b' ⟨⟩

theorem scope_inside (tags : List Tag) (b : Binder) : (inside tags b).view.scope = tags.reverse ++ b.view.scope := by
  rw [view_inside]

theorem withLocals_answers (tags : List Tag) (inner : work.Answers post) :
    (withLocals tags work).Answers fun scope a => post (tags.reverse ++ scope) a where
  settled := withLocals_settled tags inner.settled
  post := by
    intro b a b' success
    rcases outcome : work (inside tags b) with ⟨result, after⟩
    rw [withLocals_of_ran outcome] at success
    cases success
    rw [← scope_inside]
    exact inner.post _ a after outcome

/-- Work with one more variable in scope, and whether it uses that variable. -/
theorem withUsed_answers (tag : Tag) (inner : work.Answers post) :
    (withLocals [tag] (do
      let a ← work
      return (a, ← innermostUsed))).Answers fun scope result => post (tag :: scope) result.1 where
  settled := withUsed_settled tag inner.settled
  post := by
    intro b result b' success
    rcases outcome : work (inside [tag] b) with ⟨inner, after⟩
    rw [withUsed_apply outcome] at success
    cases inner with
    | error e => cases success
    | ok a =>
      cases success
      have holds := ‹work.Answers post›.post _ a after outcome
      rwa [scope_inside] at holds

end BindM

open BindM Binder

/-- A lookup prefers what is in scope. -/
theorem resolve_answers (tag : Tag) : (resolve tag).Answers fun scope t => t.Refers [tag] scope where
  settled := resolve_settled tag
  post := by
    intro b t b' success
    have free (missing : depthOf? b.locals tag.text = none) : ∀ outer ∈ b.view.scope, outer.text ≠ tag.text := by
      rw [depthOf?_eq, View.depthOf?, List.findIdx?_eq_none_iff] at missing
      exact fun outer known => beq_eq_false_iff_ne.1 (missing outer known)
    rw [resolve_apply] at success
    split at success
    · cases success
    split at success
    · cases success
      exact ⟨by simp [Term.references], by simp [Term.references], by simp [Term.tags]⟩
    next missing =>
    have outer : Traced [tag] b.view.scope [tag] [tag] :=
      ⟨fun _ inside => inside, by simpa using free missing, fun _ inside => inside⟩
    split at success
    · cases success
      exact outer
    split at success
    · cases success
      exact outer
    · cases success

/-- Work that binds names to a term. -/
abbrev BindM.Looks (work : BindM Term) (looked : List Tag) : Prop :=
  work.Answers fun scope t => t.Refers looked scope

variable {looked looked' : List Tag}

theorem bindFunction_looks {body : BindM Term} (parameters : List Tree) (inner : body.Looks looked) :
    (bindFunction parameters body).Looks looked := by
  refine (ofExcept_settled _).answers.bind fun patterns => ?_
  refine (distinctNames_settled _ _).answers.bind fun _ => ?_
  refine (withLocals_answers _ inner).bind fun t => .pure fun scope refers _ _ => ?_
  exact Term.Refers.abstractAll patterns (refers.mono (List.subset_append_right _ _) (List.Subset.refl _))

/-- A recursive definition has its own name in scope. -/
theorem bindDefinition_answers {body : BindM Term} (tag : Tag) (parameters : List Tree) (recursive : Bool)
    (inner : body.Looks looked) : (bindDefinition tag parameters recursive body).Answers fun scope t =>
      t.Refers looked (if recursive then tag :: scope else scope) := by
  have function := bindFunction_looks parameters inner
  unfold bindDefinition
  cases recursive with
  | true =>
    refine (withLocals_answers [tag] function).bind fun t => .pure fun scope refers => ?_
    exact refers.mono (List.Subset.refl _) (List.subset_append_right _ _)
  | false => exact function

theorem bindDefinition_looks {body : BindM Term} (tag : Tag) (parameters : List Tree) (recursive : Bool)
    (inner : body.Looks looked) : (bindDefinition tag parameters recursive body).Looks looked := by
  refine (bindDefinition_answers tag parameters recursive inner).mono fun scope t refers => ?_
  refine refers.mono (fun outer known => ?_) (List.Subset.refl _)
  split
  · exact List.mem_cons_of_mem _ known
  · exact known

theorem bindNamed_answers {rest : BindM Term} (tag : Tag) (value : Term) (inner : rest.Looks looked') :
    (bindNamed tag value rest).Answers fun scope t =>
      value.Refers looked scope → t.Refers (looked ++ looked') scope := by
  refine (withUsed_answers tag inner).bind fun result => ?_
  obtain ⟨t, used⟩ := result
  have wrapped : BindM.Answers (pure (Term.app (.lam tag t) value)) fun scope whole =>
      t.Refers looked' (tag :: scope) → value.Refers looked scope → whole.Refers (looked ++ looked') scope :=
    .pure fun scope refers outer =>
      ((refers.mono (List.subset_cons_self _ _) (List.Subset.refl _)).append outer).swap
  dsimp only
  split
  · exact (warn_settled _ _ _).answers.bind fun _ => wrapped.mono fun _ _ refers _ => refers
  · exact wrapped

theorem bindDestructured_answers {rest : BindM Term} (pattern : Pattern) (value : Term) (inner : rest.Looks looked') :
    (bindDestructured pattern value rest).Answers fun scope t =>
      value.Refers looked scope → t.Refers (looked ++ looked') scope := by
  refine (withLocals_answers pattern.locals inner).bind fun t => .pure fun scope refers outer => ?_
  have visible := refers.mono (List.subset_append_right _ scope) (List.Subset.refl _)
  exact ((Term.Refers.abstract pattern visible).append outer).swap

/-- An operation in front of its operand. -/
theorem applied_looks {operand : BindM Term} (tag : Tag) (inner : operand.Looks looked) :
    BindM.Looks (do
      let head ← resolve tag
      return .app head (← operand)) (tag :: looked) := by
  refine (resolve_answers tag).bind fun head => ?_
  exact Answers.bind inner fun argument => .pure fun scope right left => left.append right

namespace Tree

mutual

/-- The term of an expression refers to what it looks up. -/
theorem bind_looks (t : Tree) : t.bind.Looks t.lookups := by
  match t with
  | .int .. | .char .. =>
    rw [bind, lookups]
    exact .pure fun _ => .closed rfl
  | .str bytes _ =>
    rw [bind, lookups]
    exact .pure fun _ => .closed (Encoding.references_string bytes)
  | .unit _ =>
    rw [bind, lookups]
    exact .pure fun _ => .closed rfl
  | .name tag =>
    rw [bind, lookups]
    exact resolve_answers tag
  | .placeholder span =>
    rw [bind, lookups]
    exact resolve_answers _
  | .apply function argument _ =>
    rw [bind, lookups]
    refine (bind_looks function).bind fun head => ?_
    exact (bind_looks argument).bind fun operand => .pure fun scope right left => left.append right
  | .infixOp operator left right =>
    rw [bind, lookups]
    refine (resolve_answers operator).bind fun head => ?_
    refine (bind_looks left).bind fun first => ?_
    refine (bind_looks right).bind fun second => .pure fun scope last middle function => ?_
    exact (function.append middle).append last
  | .prefixOp operator operand =>
    rw [bind, lookups]
    split
    · exact refuse_answers
    · exact applied_looks operator (bind_looks operand)
  | .postfixOp operator operand =>
    rw [bind, lookups]
    exact applied_looks operator (bind_looks operand)
  | .mixfix parts operands =>
    rw [bind, lookups]
    refine (resolve_answers _).bind fun head => ?_
    exact (bindEach_answers operands).bind fun terms => .pure fun scope others function => function.applyAll others
  | .bracket opening closing content =>
    rw [bind, lookups]
    exact applied_looks _ (bind_looks content)
  | .tuple items _ | .comma items _ =>
    rw [bind, lookups]
    refine (bindEach_answers items).bind fun terms => .pure fun scope others => ?_
    exact (Term.Refers.closed (Encoding.references_tuple _)).applyAll others
  | .list items _ =>
    rw [bind, lookups]
    refine (bindEach_answers items).bind fun terms => .pure fun scope others => ?_
    rw [Term.Refers, Encoding.references_list]
    exact others.mono (List.Subset.refl _) fun _ => Encoding.tags_list
  | .lambda _ pattern body =>
    rw [bind, lookups]
    exact bindFunction_looks _ (bind_looks body)
  | .sectionOf body _ =>
    rw [bind, lookups]
    refine (withLocals_answers [_] (bind_looks body)).bind fun t => .pure fun scope refers => ?_
    exact refers.mono (List.subset_append_right _ _) (List.Subset.refl _)
  | .sequence items span =>
    rw [bind, lookups]
    exact bindBlock_looks [] span items
  | .data .. | .asPattern .. | .define .. | .declaration _ =>
    rw [bind]
    exact refuse_answers

theorem bindEach_answers (items : List Tree) :
    (bindEach items).Answers fun scope terms => Term.ReferAll (lookupsEach items) scope terms := by
  match items with
  | [] =>
    rw [bindEach, lookupsEach]
    exact .pure fun _ => .none
  | t :: rest =>
    rw [bindEach, lookupsEach]
    refine (bind_looks t).bind fun first => ?_
    exact (bindEach_answers rest).bind fun others => .pure fun scope after before => before.append after

/-- The value of a definition is bound outside of the rest of its block. -/
theorem bindBlock_looks (defined : List (String × Span)) (span : Span) (items : List Tree) :
    (bindBlock defined span items).Looks (lookupsEach items) := by
  match items with
  | [] =>
    rw [bindBlock]
    exact refuse_answers
  | t :: rest =>
    have others (defined : List (String × Span)) : (bindBlock defined span rest).Looks (lookupsEach rest) :=
      bindBlock_looks defined span rest
    rw [lookupsEach]
    cases t with
    | declaration d =>
      rw [bindBlock, lookups]
      exact others defined
    | define tag lhs body =>
      rw [bindBlock, lookups]
      split
      · exact refuse_answers
      split
      · exact refuse_answers
      split
      · refine (distinctNames_settled _ _).answers.bind fun seen => ?_
        refine (bindDefinition_looks _ _ _ (bind_looks body)).bind fun value => ?_
        exact (bindNamed_answers _ value (others seen)).mono fun _ _ refers inner _ => refers inner
      · refine Answers.bind (destructuring_settled lhs).answers fun pattern => ?_
        refine (distinctNames_settled _ _).answers.bind fun seen => ?_
        refine (bind_looks body).bind fun value => ?_
        exact (bindDestructured_answers pattern value (others seen)).mono fun _ _ refers inner _ _ => refers inner
    | _ =>
      rw [bindBlock]
      · split
        · next last =>
          rw [lookupsEach_declarations last, List.append_nil]
          exact bind_looks _
        · refine (bind_looks _).bind fun action => ?_
          exact (others defined).bind fun body => .pure fun scope after before => before.append after
      all_goals
        intros
        contradiction

end

/-- The name of a definition that a source spells is not the hidden one. -/
theorem definitionHead_ne {lhs : Tree} {tag : Tag} {parameters : List Tree} (spelled : lhs.Each Spelled)
    (defines : lhs.definitionHead? = some (tag, parameters)) : tag.text ≠ sectionName := by
  have root := spelled lhs .root
  fun_induction definitionHead? lhs generalizing tag parameters with
  | case1 name =>
    cases defines
    exact unspaced_ne (root _ (List.mem_singleton_self _))
  | case2 function argument span ih =>
    obtain ⟨⟨head, before⟩, found, same⟩ := Option.map_eq_some_iff.1 defines
    cases same
    have inner := spelled.child (show function ∈ (Tree.apply function argument span).children by simp [children])
    exact ih inner found (inner _ .root)
  | case3 | case5 | case6 =>
    cases defines
    exact unspaced_ne (root _ (List.mem_singleton_self _))
  | case7 parts operands =>
    cases defines
    exact unspaced_ne (unspaced_mixfixName fun tag inside => root _ (List.mem_map_of_mem inside))
  | case8 opening closing content =>
    cases defines
    exact unspaced_ne (unspaced_bracketName (root _ (by simp [texts])) (root _ (by simp [texts])))
  | _ => cases defines

end Tree

namespace Binder

/-- How a definition uses the name that it defines. Whatever its body looks up under that name is mentioned there and
has become a variable, and no reference to a global has that name. -/
structure OwnName (tag : Tag) (body : Tree) (term : Term) : Prop where
  mentioned : ∀ looked ∈ body.lookups, looked.text = tag.text → body.mentions tag.text = true
  bound : ∀ looked ∈ body.lookups, looked.text = tag.text → ∃ depth, .var depth looked ∈ term.nodes
  looked : ∀ index g, .global index g ∈ term.nodes → g ∈ body.lookups
  global : ∀ index g, .global index g ∈ term.nodes → g.text ≠ tag.text
  builtin : ∀ operation g, .builtin operation g ∈ term.nodes → g.text ≠ tag.text

theorem ownName_of_refers {tag : Tag} {body : Tree} {term : Term} {scope : List Tag} (visible : tag.text ≠ sectionName)
    (refers : term.Refers body.lookups (if body.mentions tag.text then tag :: scope else scope)) :
    OwnName tag body term := by
  have mentioned : ∀ looked ∈ body.lookups, looked.text = tag.text → body.mentions tag.text = true := by
    intro looked inside same
    rw [← same] at visible ⊢
    exact body.lookups_mentioned inside visible
  have elsewhere : ∀ g ∈ term.references, g.text ≠ tag.text := by
    intro g inside same
    have recursive := mentioned g (refers.reference g inside) same
    rw [Term.Refers, if_pos recursive] at refers
    exact refers.outside g inside tag (List.mem_cons_self ..) same.symm
  refine ⟨mentioned, fun looked inside same => ?_, fun index g inside => ?_, fun index g inside => ?_,
    fun operation g inside => ?_⟩
  · exact (Term.var_or_referenced (refers.occurs looked inside)).resolve_right fun outer => elsewhere looked outer same
  · exact refers.reference g (Term.references_part inside (List.mem_singleton_self _))
  · exact elsewhere g (Term.references_part inside (List.mem_singleton_self _))
  · exact elsewhere g (Term.references_part inside (List.mem_singleton_self _))

/-- A definition that binds has become a new global, whose term refers to its name only by variables. The one name that
is left out is the hidden one, which no source defines. -/
theorem defineGlobal_ownName {lhs body : Tree} {b b' : Binder} (defined : defineGlobal lhs body b = (.ok (), b')) :
    ∃ tag parameters term, lhs.definitionHead? = some (tag, parameters) ∧
      b'.globals = b.globals.push ⟨tag, term⟩ ∧ (tag.text ≠ sectionName → OwnName tag body term) ∧
      ∀ text origin t q, parseUnder .default origin text = .ok (t, q) → Tree.Part lhs t → tag.text ≠ sectionName := by
  unfold defineGlobal at defined
  cases defines : lhs.definitionHead? with
  | none =>
    rw [defines] at defined
    cases defined
  | some head =>
    obtain ⟨tag, parameters⟩ := head
    rw [defines] at defined
    dsimp only at defined
    split at defined
    · cases defined
    rw [bind_apply] at defined
    rcases free : checkGlobalName tag b with ⟨_ | _, checked⟩
    · rw [free] at defined
      cases defined
    rw [free] at defined
    dsimp only at defined
    rw [bind_apply] at defined
    rcases bound : bindDefinition tag parameters (body.mentions tag.text) body.bind checked with ⟨_ | term, middle⟩
    · rw [bound] at defined
      cases defined
    rw [bound] at defined
    cases defined
    have answers := bindDefinition_answers tag parameters (body.mentions tag.text) body.bind_looks
    have tables := (answers.settled.view_eq bound).trans ((checkGlobalName_settled tag).view_eq free)
    refine ⟨tag, parameters, term, rfl, ?_, fun visible => ?_, fun text origin t q parsed inside => ?_⟩
    · exact congrArg (fun view => view.globals.push ⟨tag, term⟩) tables
    · exact ownName_of_refers visible (answers.post _ _ _ bound)
    · exact Tree.definitionHead_ne ((Parser.spelled_of_parse parsed).part inside) defines

/-- `left ++ right` -/
def swapped (left right : String) : Tree :=
  .infixOp ⟨"++", ⟨2, 4⟩, .module⟩ (.name ⟨left, ⟨0, 1⟩, .module⟩) (.name ⟨right, ⟨5, 6⟩, .module⟩)

/-- `x ++ y = y ++ x` takes the place of an operator of the prelude and is bound to itself. -/
theorem defineGlobal_ownName_shadowing : ∃ b' term, defineGlobal (swapped "x" "y") (swapped "y" "x")
      ⟨#[⟨⟨"++", ⟨0, 2⟩, .prelude⟩, Encoding.identity⟩], [("++", 0)], [], []⟩ = (.ok (), b') ∧
    b'.globals[1]? = some ⟨⟨"++", ⟨2, 4⟩, .module⟩, term⟩ ∧
    (∀ index g, .global index g ∈ term.nodes → g.text ≠ "++") ∧
    ∃ depth, .var depth ⟨"++", ⟨2, 4⟩, .module⟩ ∈ term.nodes := by
  have defined : defineGlobal (swapped "x" "y") (swapped "y" "x")
      ⟨#[⟨⟨"++", ⟨0, 2⟩, .prelude⟩, Encoding.identity⟩], [("++", 0)], [], []⟩ = (.ok (), _) := rfl
  obtain ⟨tag, parameters, term, head, pushed, own, -⟩ := defineGlobal_ownName defined
  cases head
  obtain ⟨-, bound, -, global, -⟩ := own (by decide)
  refine ⟨_, term, defined, ?_, global, bound _ (List.mem_cons_self ..) rfl⟩
  rw [pushed]
  rfl

end Binder

end MixfixLambda
