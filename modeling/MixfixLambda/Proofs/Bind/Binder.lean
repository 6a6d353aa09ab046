import MixfixLambda.Bind.Binder
import MixfixLambda.Proofs.Bind.Encoding

/-!
# Scopes of bound expressions

Binding an expression changes nothing in the binder but its marks and warnings, and the term it yields is
scoped: under as many binders as there are variables in scope, over the globals there are so far.
-/
namespace MixfixLambda

namespace Binder

/-- Every name stands for a global that there is. -/
def Named (b : Binder) : Prop :=
  ∀ entry ∈ b.names, entry.2 < b.globals.size

/-- The same globals under the same names, and as many variables in scope. -/
structure Agrees (b b' : Binder) : Prop where
  globals : b'.globals = b.globals
  names : b'.names = b.names
  depth : b'.locals.length = b.locals.length

theorem Agrees.refl (b : Binder) : b.Agrees b :=
  ⟨rfl, rfl, rfl⟩

theorem Agrees.trans {a b c : Binder} (first : a.Agrees b) (second : b.Agrees c) : a.Agrees c :=
  ⟨second.globals.trans first.globals, second.names.trans first.names,
    second.depth.trans first.depth⟩

theorem Agrees.named {b b' : Binder} (same : b.Agrees b') (named : b.Named) : b'.Named := by
  intro entry member
  rw [same.globals]
  exact named entry (same.names ▸ member)

theorem indexOf?_lt {b : Binder} (named : b.Named) {name : String} {index : Nat}
    (found : b.indexOf? name = some index) : index < b.globals.size := by
  obtain ⟨entry, search, rfl⟩ := Option.map_eq_some_iff.mp found
  exact named entry (List.mem_of_find?_eq_some search)

theorem depthOf?_lt {locals : List Local} {name : String} {depth : Nat}
    (found : depthOf? locals name = some depth) : depth < locals.length :=
  (List.findIdx?_eq_some_iff_findIdx_eq.mp found).1

end Binder

namespace BindM

variable {α β : Type}

/-- Work that leaves the binder in agreement and whose result, if there is one, satisfies `post` at the
number of variables in scope and the number of globals. -/
def Yields (work : BindM α) (post : Nat → Nat → α → Prop) : Prop :=
  ∀ b a b', b.Named → work b = (.ok a, b') →
    b.Agrees b' ∧ post b.locals.length b.globals.size a

theorem bind_apply (work : BindM α) (next : α → BindM β) (b : Binder) :
    (work >>= next) b =
      match work b with
      | (.ok a, b') => next a b'
      | (.error e, b') => (.error e, b') := by
  simp only [bind, ExceptT.bind, ExceptT.mk, StateT.bind]
  rcases work b with ⟨_ | _, _⟩ <;> rfl

/-- Work in a row that succeeds has succeeded all along. -/
theorem bind_success {work : BindM α} {next : α → BindM β} {b b' : Binder} {result : β}
    (success : (work >>= next) b = (.ok result, b')) :
    ∃ a middle, work b = (.ok a, middle) ∧ next a middle = (.ok result, b') := by
  rw [bind_apply] at success
  rcases outcome : work b with ⟨_ | a, middle⟩
  · rw [outcome] at success
    cases success
  · rw [outcome] at success
    exact ⟨a, middle, rfl, success⟩

theorem get_apply (b : Binder) : (get : BindM Binder) b = (.ok b, b) :=
  rfl

theorem Yields.bind {work : BindM α} {next : α → BindM β} {post : Nat → Nat → α → Prop}
    {after : Nat → Nat → β → Prop} (first : work.Yields post)
    (second : ∀ a, (next a).Yields fun depth limit result =>
      post depth limit a → after depth limit result) :
    (work >>= next).Yields after := by
  intro b result b' named success
  obtain ⟨a, middle, outcome, success⟩ := bind_success success
  obtain ⟨same, holds⟩ := first b a middle named outcome
  obtain ⟨same', holds'⟩ := second a middle result b' (same.named named) success
  rw [same.depth, same.globals] at holds'
  exact ⟨same.trans same', holds' holds⟩

theorem Yields.pure {post : Nat → Nat → α → Prop} {a : α}
    (holds : ∀ depth limit, post depth limit a) : (Pure.pure a : BindM α).Yields post := by
  intro b result b' _ success
  cases success
  exact ⟨.refl b, holds _ _⟩

theorem Yields.mono {work : BindM α} {post weaker : Nat → Nat → α → Prop}
    (strong : work.Yields post)
    (implies : ∀ depth limit a, post depth limit a → weaker depth limit a) :
    work.Yields weaker := by
  intro b a b' named success
  obtain ⟨same, holds⟩ := strong b a b' named success
  exact ⟨same, implies _ _ _ holds⟩

theorem refuse_yields (cause : BindCause) (span : Span) (post : Nat → Nat → α → Prop) :
    (refuse cause span).Yields post := by
  intro b a b' _ success
  cases success

theorem warn_yields (kind : WarningKind) (name : String) (span : Span) :
    (warn kind name span).Yields fun _ _ _ => True := by
  intro b a b' _ success
  cases success
  exact ⟨⟨rfl, rfl, rfl⟩, trivial⟩

theorem ofExcept_yields (outcome : Except BindError α) :
    (ofExcept outcome : BindM α).Yields fun _ _ _ => True := by
  intro b a b' _ success
  cases outcome with
  | error e => cases success
  | ok a =>
    cases success
    exact ⟨.refl b, trivial⟩

theorem innermostUsed_yields : innermostUsed.Yields fun _ _ _ => True := by
  intro b a b' _ success
  cases success
  exact ⟨.refl b, trivial⟩

/-- Inside, there are as many variables more as there are tags; outside, they are gone again. -/
theorem withLocals_yields {work : BindM α} {post : Nat → Nat → α → Prop} (tags : List Tag)
    (inner : work.Yields post) :
    (withLocals tags work).Yields fun depth limit a => post (depth + tags.length) limit a := by
  intro b a b' named success
  let inside : Binder := { b with locals := tags.reverse.map (⟨·, false⟩) ++ b.locals }
  have entered : inside.locals.length = b.locals.length + tags.length := by
    simp [inside, Nat.add_comm]
  rcases outcome : work inside with ⟨result, after⟩
  simp only [withLocals] at success
  rw [outcome] at success
  cases success
  obtain ⟨same, holds⟩ := inner inside a after named outcome
  have left := same.depth
  refine ⟨⟨same.globals, same.names, ?_⟩, ?_⟩
  · simp only [List.length_drop]
    omega
  · rwa [entered] at holds

end BindM

open BindM Binder

theorem distinctNames_yields (seen : List (String × Span)) (tags : List Tag) :
    (distinctNames seen tags).Yields fun _ _ _ => True := by
  unfold distinctNames
  split
  · exact refuse_yields _ _ _
  · exact .pure fun _ _ => trivial

theorem resolve_apply (tag : Tag) (b : Binder) :
    resolve tag b =
      if tag.text == "_" then (refuse (.reservedName tag.text) tag.span : BindM Term) b
      else
        match depthOf? b.locals tag.text with
        | some depth =>
          (.ok (.var depth tag),
            { b with locals := b.locals.modify depth fun l => { l with used := true } })
        | none =>
          match Builtin.ofName? tag.text with
          | some operation => (.ok (.builtin operation tag), b)
          | none =>
            match b.indexOf? tag.text with
            | some index => (.ok (.global index tag), b)
            | none => (refuse (.undefinedSymbol tag.text) tag.span : BindM Term) b := by
  unfold resolve
  split
  · rfl
  · dsimp only
    rw [bind_apply, get_apply]
    dsimp only
    cases depthOf? b.locals tag.text with
    | some depth => rfl
    | none =>
      cases Builtin.ofName? tag.text with
      | some operation => rfl
      | none => cases b.indexOf? tag.text <;> rfl

/-- What a name stands for is in scope. -/
theorem resolve_yields (tag : Tag) :
    (resolve tag).Yields fun depth limit t => t.Scoped depth limit := by
  intro b t b' named success
  rw [resolve_apply] at success
  split at success
  · cases success
  · split at success
    · next index found =>
      cases success
      exact ⟨⟨rfl, rfl, by simp⟩, depthOf?_lt found⟩
    · split at success
      · cases success
        exact ⟨.refl b, trivial⟩
      · split at success
        · next index found =>
          cases success
          exact ⟨.refl b, indexOf?_lt named found⟩
        · cases success

/-- Work that yields terms in scope. -/
def BindM.Scopes (work : BindM Term) : Prop :=
  work.Yields fun depth limit t => t.Scoped depth limit

theorem bindFunction_scopes {body : BindM Term} (parameters : List Tree) (inner : body.Scopes) :
    (bindFunction parameters body).Scopes := by
  refine (ofExcept_yields _).bind fun patterns => ?_
  refine (distinctNames_yields _ _).bind fun _ => ?_
  refine (withLocals_yields _ inner).bind fun t => ?_
  exact .pure fun depth limit inside _ _ => Pattern.abstractAll_scoped t patterns depth inside

theorem bindDefinition_scopes {body : BindM Term} (tag : Tag) (parameters : List Tree)
    (recursive : Bool) (inner : body.Scopes) :
    (bindDefinition tag parameters recursive body).Scopes := by
  unfold bindDefinition
  split
  · refine (withLocals_yields [tag] (bindFunction_scopes parameters inner)).bind fun t => ?_
    exact .pure fun depth limit inside => ⟨Encoding.fix_scoped, inside⟩
  · exact bindFunction_scopes parameters inner

theorem bindNamed_yields {rest : BindM Term} (tag : Tag) (value : Term) (inner : rest.Scopes) :
    (bindNamed tag value rest).Yields fun depth limit t =>
      value.Scoped depth limit → t.Scoped depth limit := by
  have body : BindM.Yields (do
      let rest ← rest
      return (rest, ← innermostUsed)) fun depth limit result => result.1.Scoped depth limit := by
    refine Yields.bind inner fun t => ?_
    refine innermostUsed_yields.bind fun used => ?_
    exact .pure fun depth limit _ inside => inside
  refine (withLocals_yields [tag] body).bind fun result => ?_
  obtain ⟨t, used⟩ := result
  have wrapped : BindM.Yields (pure (Term.app (.lam tag t) value)) fun depth limit whole =>
      t.Scoped (depth + [tag].length) limit →
        value.Scoped depth limit → whole.Scoped depth limit :=
    .pure fun depth limit inside outside => ⟨inside, outside⟩
  dsimp only
  split
  · exact (warn_yields _ _ _).bind fun _ => wrapped.mono fun _ _ _ scopes _ => scopes
  · exact wrapped

theorem destructuring_yields (lhs : Tree) : (destructuring lhs).Yields fun _ _ _ => True := by
  unfold destructuring
  split
  · exact ofExcept_yields _
  · exact ofExcept_yields _
  · exact refuse_yields _ _ _

theorem bindDestructured_yields {rest : BindM Term} (pattern : Pattern) (value : Term)
    (inner : rest.Scopes) :
    (bindDestructured pattern value rest).Yields fun depth limit t =>
      value.Scoped depth limit → t.Scoped depth limit := by
  refine (withLocals_yields pattern.locals inner).bind fun t => ?_
  exact .pure fun depth limit inside outside =>
    ⟨Pattern.abstract_scoped t pattern depth inside, outside⟩

/-- An operation in front of its operand. -/
theorem applied_scopes {operand : BindM Term} (tag : Tag) (inner : operand.Scopes) :
    BindM.Scopes (do
      let head ← resolve tag
      return .app head (← operand)) := by
  refine (resolve_yields tag).bind fun head => ?_
  refine Yields.bind inner fun argument => ?_
  exact .pure fun depth limit right left => ⟨left, right⟩

namespace Tree

mutual

/-- The term of an expression is in scope. -/
theorem bind_scopes (t : Tree) : t.bind.Scopes := by
  match t with
  | .int value _ =>
    rw [bind]
    exact .pure fun _ _ => trivial
  | .char value _ =>
    rw [bind]
    exact .pure fun _ _ => trivial
  | .str bytes _ =>
    rw [bind]
    exact .pure fun _ _ => Encoding.string_scoped bytes
  | .name tag =>
    rw [bind]
    exact resolve_yields tag
  | .placeholder span =>
    rw [bind]
    exact resolve_yields _
  | .apply function argument _ =>
    rw [bind]
    refine (bind_scopes function).bind fun head => ?_
    refine (bind_scopes argument).bind fun operand => ?_
    exact .pure fun depth limit right left => ⟨left, right⟩
  | .infixOp operator left right =>
    rw [bind]
    refine (resolve_yields operator).bind fun head => ?_
    refine (bind_scopes left).bind fun first => ?_
    refine (bind_scopes right).bind fun second => ?_
    exact .pure fun depth limit last middle function => ⟨⟨function, middle⟩, last⟩
  | .prefixOp operator operand =>
    rw [bind]
    split
    · exact refuse_yields _ _ _
    · exact applied_scopes operator (bind_scopes operand)
  | .postfixOp operator operand =>
    rw [bind]
    exact applied_scopes operator (bind_scopes operand)
  | .mixfix parts operands =>
    rw [bind]
    refine (resolve_yields _).bind fun head => ?_
    refine (bindEach_yields operands).bind fun terms => ?_
    exact .pure fun depth limit inside function =>
      (Term.applyAll_scoped head terms).mpr ⟨function, inside⟩
  | .bracket opening closing content =>
    rw [bind]
    exact applied_scopes _ (bind_scopes content)
  | .tuple items _ | .comma items _ =>
    rw [bind]
    refine (bindEach_yields items).bind fun terms => ?_
    exact .pure fun depth limit inside =>
      (Term.applyAll_scoped _ terms).mpr ⟨Encoding.tuple_scoped _, inside⟩
  | .list items _ =>
    rw [bind]
    refine (bindEach_yields items).bind fun terms => ?_
    exact .pure fun depth limit inside => Encoding.list_scoped terms inside
  | .unit _ =>
    rw [bind]
    exact .pure fun _ _ => Encoding.identity_scoped
  | .lambda _ pattern body =>
    rw [bind]
    exact bindFunction_scopes _ (bind_scopes body)
  | .sectionOf body _ =>
    rw [bind]
    refine (withLocals_yields [_] (bind_scopes body)).bind fun t => ?_
    exact .pure fun depth limit inside => inside
  | .sequence items span =>
    rw [bind]
    exact bindBlock_scopes [] span items
  | .data .. | .asPattern .. | .define .. | .declaration _ =>
    rw [bind]
    exact refuse_yields _ _ _

theorem bindEach_yields (items : List Tree) :
    (bindEach items).Yields fun depth limit terms => ∀ t ∈ terms, t.Scoped depth limit := by
  match items with
  | [] =>
    rw [bindEach]
    exact .pure fun _ _ t member => absurd member List.not_mem_nil
  | t :: rest =>
    rw [bindEach]
    refine (bind_scopes t).bind fun first => ?_
    refine (bindEach_yields rest).bind fun others => ?_
    exact .pure fun depth limit after before => List.forall_mem_cons.mpr ⟨before, after⟩

/-- A statement of a block wraps the rest of the block under the variables that it defines. -/
theorem bindBlock_scopes (defined : List (String × Span)) (span : Span) (items : List Tree) :
    (bindBlock defined span items).Scopes := by
  match items with
  | [] =>
    rw [bindBlock]
    exact refuse_yields _ _ _
  | t :: rest =>
    have others (defined : List (String × Span)) : (bindBlock defined span rest).Scopes :=
      bindBlock_scopes defined span rest
    cases t with
    | declaration d =>
      rw [bindBlock]
      exact others defined
    | define tag lhs body =>
      rw [bindBlock]
      split
      · exact refuse_yields _ _ _
      split
      · exact refuse_yields _ _ _
      split
      · refine (distinctNames_yields _ _).bind fun seen => ?_
        refine (bindDefinition_scopes _ _ _ (bind_scopes body)).bind fun value => ?_
        exact (bindNamed_yields _ value (others seen)).mono fun _ _ _ scopes inside _ => scopes inside
      · refine (destructuring_yields lhs).bind fun pattern => ?_
        refine (distinctNames_yields _ _).bind fun seen => ?_
        refine (bind_scopes body).bind fun value => ?_
        exact (bindDestructured_yields pattern value (others seen)).mono
          fun _ _ _ scopes inside _ _ => scopes inside
    | _ =>
      rw [bindBlock]
      · split
        · exact bind_scopes _
        · refine (bind_scopes _).bind fun action => ?_
          refine (others defined).bind fun body => ?_
          exact .pure fun _ _ inside first => ⟨first, inside⟩
      all_goals
        intros
        contradiction

end

end Tree

end MixfixLambda
