import MixfixLambda.Proofs.Bind.Binder

/-!
# What binding depends on and what it changes

Binding reads the tables of globals and the names in scope, never the marks and warnings that are there already. It
puts marks on variables in scope and adds warnings. Both hold whether it succeeds or not, so that an error leaves
nothing behind that a later expression could notice.
-/
namespace MixfixLambda

namespace Local

/-- The variables with marks on those at the chosen depths. -/
def mark (chosen : Nat → Bool) (locals : List Local) : List Local :=
  locals.mapIdx fun depth l => { l with used := l.used || chosen depth }

variable (chosen also : Nat → Bool) (locals : List Local)

@[simp]
theorem length_mark : (mark chosen locals).length = locals.length := by
  simp [mark]

theorem getElem?_mark (depth : Nat) :
    (mark chosen locals)[depth]? = locals[depth]?.map fun l => { l with used := l.used || chosen depth } := by
  simp [mark]

@[simp]
theorem tags_mark : (mark chosen locals).map Local.tag = locals.map Local.tag := by
  refine List.ext_getElem? fun depth => ?_
  rw [List.getElem?_map, List.getElem?_map, getElem?_mark, Option.map_map]
  rfl

@[simp]
theorem mark_none : mark (fun _ => false) locals = locals := by
  refine List.ext_getElem? fun depth => ?_
  rw [getElem?_mark]
  cases locals[depth]? <;> simp

theorem mark_mark : mark also (mark chosen locals) = mark (fun depth => chosen depth || also depth) locals := by
  refine List.ext_getElem? fun depth => ?_
  rw [getElem?_mark, getElem?_mark, getElem?_mark, Option.map_map]
  cases locals[depth]? <;> simp [Bool.or_assoc]

theorem drop_mark (count : Nat) :
    (mark chosen locals).drop count = mark (fun depth => chosen (count + depth)) (locals.drop count) := by
  refine List.ext_getElem? fun depth => ?_
  rw [List.getElem?_drop, getElem?_mark, getElem?_mark, List.getElem?_drop]

/-- The mark that a lookup leaves. -/
theorem modify_eq_mark (depth : Nat) :
    (locals.modify depth fun l => { l with used := true }) = mark (· == depth) locals := by
  refine List.ext_getElem? fun index => ?_
  rw [getElem?_mark, List.getElem?_modify]
  rcases Nat.decEq index depth with other | rfl
  · have distinct : ¬depth = index := fun same => other same.symm
    have unmarked : (index == depth) = false := beq_eq_false_iff_ne.2 other
    cases locals[index]? <;> simp [distinct, unmarked]
  · cases locals[index]? <;> simp

end Local

namespace Binder

/-- What binding depends on: the globals, their names, and the names in scope. -/
structure View where
  globals : Array Global
  names : List (String × Nat)
  scope : List Tag

def view (b : Binder) : View :=
  ⟨b.globals, b.names, b.locals.map Local.tag⟩

/-- The depth of the innermost variable of a name. -/
def View.depthOf? (view : View) (name : String) : Option Nat :=
  view.scope.findIdx? (·.text == name)

/-- The newest global of a name. -/
def View.indexOf? (view : View) (name : String) : Option Nat :=
  (view.names.find? (·.1 == name)).map (·.2)

theorem depthOf?_eq (b : Binder) (name : String) : depthOf? b.locals name = b.view.depthOf? name := by
  rw [view, View.depthOf?, List.findIdx?_map]
  rfl

theorem indexOf?_eq (b : Binder) (name : String) : b.indexOf? name = b.view.indexOf? name :=
  rfl

end Binder

/-- What comes of some work: its result, the tables behind it, the depths of the variables that it uses, and the
warnings that it adds. -/
structure Effect (α : Type) where
  result : Except BindError α
  globals : Array Global
  names : List (String × Nat)
  used : Nat → Bool
  warnings : List BindWarning

/-- The binder behind some work. -/
def Binder.after {α : Type} (b : Binder) (e : Effect α) : Binder :=
  ⟨e.globals, e.names, Local.mark e.used b.locals, e.warnings ++ b.warnings⟩

/-- The same work without its result. -/
def Effect.answering {α β : Type} (e : Effect α) (result : Except BindError β) : Effect β :=
  { e with result := result }

/-- Nothing changes. -/
def Effect.still {α : Type} (view : Binder.View) (result : Except BindError α) : Effect α :=
  ⟨result, view.globals, view.names, fun _ => false, []⟩

@[simp]
theorem Binder.after_still {α : Type} (b : Binder) (result : Except BindError α) :
    b.after (.still b.view result) = b := by
  simp [after, Effect.still, view]

@[simp]
theorem Binder.view_after {α : Type} (b : Binder) (e : Effect α) :
    (b.after e).view = ⟨e.globals, e.names, b.view.scope⟩ := by
  simp [view, after]

namespace BindM

open Binder

variable {α β : Type} {defines : Prop}

/-- Work whose effect is settled by the view that it starts from. Unless it may define globals, it leaves the tables as
they are. -/
def Settled (defines : Prop) (work : BindM α) : Prop :=
  ∀ view : View, ∃ e : Effect α, (¬defines → e.globals = view.globals ∧ e.names = view.names) ∧
    ∀ b : Binder, b.view = view → work b = (e.result, b.after e)

/-- Work that changes nothing from a view. -/
theorem settled_at {work : BindM α} {view : View} (result : Except BindError α)
    (same : ∀ b : Binder, b.view = view → work b = (result, b)) :
    ∃ e : Effect α, (¬defines → e.globals = view.globals ∧ e.names = view.names) ∧
      ∀ b : Binder, b.view = view → work b = (e.result, b.after e) := by
  refine ⟨.still view result, fun _ => ⟨rfl, rfl⟩, fun b known => ?_⟩
  rw [same b known, ← known, after_still]
  rfl

theorem Settled.pure (a : α) : (Pure.pure a : BindM α).Settled defines :=
  fun _ => settled_at (.ok a) fun _ _ => rfl

theorem refuse_settled (cause : BindCause) (span : Span) : (refuse cause span : BindM α).Settled defines :=
  fun _ => settled_at (.error ⟨cause, span⟩) fun _ _ => rfl

theorem ofExcept_settled (outcome : Except BindError α) : (ofExcept outcome : BindM α).Settled defines := by
  cases outcome with
  | error e => exact refuse_settled e.cause e.span
  | ok a => exact .pure a

theorem warn_settled (kind : WarningKind) (name : String) (span : Span) :
    (warn kind name span).Settled defines := by
  intro view
  refine ⟨⟨.ok (), view.globals, view.names, fun _ => false, [⟨kind, name, span⟩]⟩, fun _ => ⟨rfl, rfl⟩,
    fun b known => ?_⟩
  subst known
  simp only [after, Binder.view, Local.mark_none]
  rfl

/-- One after the other, as long as there is a result: marks and warnings add up. -/
theorem Settled.bind {work : BindM α} {next : α → BindM β} (first : work.Settled defines)
    (second : ∀ a, (next a).Settled defines) : (work >>= next).Settled defines := by
  intro view
  obtain ⟨e, kept, effect⟩ := first view
  cases outcome : e.result with
  | error error =>
    refine ⟨e.answering (.error error), kept, fun b known => ?_⟩
    rw [bind_apply, effect b known, outcome]
    rfl
  | ok a =>
    obtain ⟨e', kept', effect'⟩ := second a ⟨e.globals, e.names, view.scope⟩
    refine ⟨⟨e'.result, e'.globals, e'.names, fun depth => e.used depth || e'.used depth,
      e'.warnings ++ e.warnings⟩, fun still => ?_, fun b known => ?_⟩
    · obtain ⟨globals, names⟩ := kept still
      obtain ⟨globals', names'⟩ := kept' still
      exact ⟨globals'.trans globals, names'.trans names⟩
    · have between : (b.after e).view = ⟨e.globals, e.names, view.scope⟩ := by rw [view_after, known]
      rw [bind_apply, effect b known, outcome]
      dsimp only
      rw [effect' _ between]
      simp only [after, Local.mark_mark, List.append_assoc]

/-- The binder inside, with more variables in scope. -/
def inside (tags : List Tag) (b : Binder) : Binder :=
  { b with locals := tags.reverse.map (⟨·, false⟩) ++ b.locals }

theorem view_inside (tags : List Tag) (b : Binder) :
    (inside tags b).view = ⟨b.globals, b.names, tags.reverse ++ b.view.scope⟩ := by
  simp [inside, Binder.view, Function.comp_def]

theorem withLocals_of_ran {work : BindM α} {tags : List Tag} {b after : Binder} {result : Except BindError α}
    (ran : work (inside tags b) = (result, after)) :
    withLocals tags work b = (result, { after with locals := after.locals.drop tags.length }) := by
  rw [inside] at ran
  simp only [withLocals, ran]

/-- The variables go out of scope with their marks; those outside keep theirs. -/
theorem withLocals_settled {work : BindM α} (tags : List Tag) (inner : work.Settled defines) :
    (withLocals tags work).Settled defines := by
  intro view
  obtain ⟨e, kept, effect⟩ := inner ⟨view.globals, view.names, tags.reverse ++ view.scope⟩
  refine ⟨{ e with used := fun depth => e.used (tags.length + depth) }, kept, fun b known => ?_⟩
  have ran : work (inside tags b) = (e.result, (inside tags b).after e) := by
    refine effect _ ?_
    rw [view_inside, ← known]
    rfl
  have left : (Local.mark e.used (inside tags b).locals).drop tags.length =
      Local.mark (fun depth => e.used (tags.length + depth)) b.locals := by
    rw [Local.drop_mark, inside, List.drop_left' (by simp)]
  rw [withLocals_of_ran ran]
  simp only [after, left]
  rfl

/-- Work with one more variable in scope, and whether it uses that variable. -/
theorem withUsed_apply {work : BindM α} {tag : Tag} {b after : Binder} {result : Except BindError α}
    (ran : work (inside [tag] b) = (result, after)) :
    withLocals [tag] (do
      let a ← work
      return (a, ← innermostUsed)) b =
      (result.map fun a => (a, after.locals.head?.any (·.used)), { after with locals := after.locals.drop 1 }) := by
  have whole : (do
      let a ← work
      return (a, ← innermostUsed) : BindM (α × Bool)) (inside [tag] b) =
      (result.map fun a => (a, after.locals.head?.any (·.used)), after) := by
    rw [bind_apply, ran]
    cases result <;> rfl
  exact withLocals_of_ran whole

/-- Whether a variable has been used is settled as soon as it has been brought into scope. -/
theorem withUsed_settled {work : BindM α} (tag : Tag) (inner : work.Settled defines) :
    (withLocals [tag] (do
      let a ← work
      return (a, ← innermostUsed))).Settled defines := by
  intro view
  obtain ⟨e, kept, effect⟩ := inner ⟨view.globals, view.names, tag :: view.scope⟩
  let result := e.result.map fun a => (a, e.used 0)
  refine ⟨{ e.answering result with used := fun depth => e.used (1 + depth) }, kept, fun b known => ?_⟩
  have ran : work (inside [tag] b) = (e.result, (inside [tag] b).after e) := by
    refine effect _ ?_
    rw [view_inside, ← known]
    rfl
  have fresh : ((inside [tag] b).after e).locals.head?.any (·.used) = e.used 0 := by
    simp [inside, after, Local.mark]
  have left : (Local.mark e.used (inside [tag] b).locals).drop 1 =
      Local.mark (fun depth => e.used (1 + depth)) b.locals := by
    rw [Local.drop_mark, inside, List.drop_left' (by simp)]
  rw [withUsed_apply ran, fresh]
  simp only [after, left]
  rfl

theorem mapM_settled {work : α → BindM β} (each : ∀ a, (work a).Settled defines) (items : List α) :
    (items.mapM work).Settled defines := by
  induction items with
  | nil => exact .pure _
  | cons a rest ih =>
    rw [List.mapM_cons]
    exact (each a).bind fun _ => ih.bind fun _ => .pure _

theorem forIn_settled {body : α → PUnit → BindM (ForInStep PUnit)} (each : ∀ a r, (body a r).Settled defines)
    (items : List α) : (forIn items PUnit.unit body).Settled defines := by
  induction items with
  | nil => exact .pure _
  | cons a rest ih =>
    rw [List.forIn_cons]
    refine (each a PUnit.unit).bind fun result => ?_
    cases result with
    | done => exact .pure _
    | yield => exact ih

end BindM

open BindM Binder

variable {defines : Prop}

/-- A lookup marks the variable that it finds. -/
theorem resolve_settled (tag : Tag) : (resolve tag).Settled defines := by
  intro view
  by_cases reserved : (tag.text == "_") = true
  · refine settled_at (.error ⟨.reservedName tag.text, tag.span⟩) fun b _ => ?_
    rw [resolve_apply, if_pos reserved]
    rfl
  cases found : view.depthOf? tag.text with
  | some depth =>
    refine ⟨⟨.ok (.var depth tag), view.globals, view.names, (· == depth), []⟩, fun _ => ⟨rfl, rfl⟩,
      fun b known => ?_⟩
    subst known
    rw [resolve_apply, if_neg reserved, depthOf?_eq, found]
    simp only [Local.modify_eq_mark]
    rfl
  | none =>
    have outside (b : Binder) (known : b.view = view) : depthOf? b.locals tag.text = none := by
      rw [depthOf?_eq, known, found]
    cases builtin : Builtin.ofName? tag.text with
    | some operation =>
      refine settled_at (.ok (.builtin operation tag)) fun b known => ?_
      rw [resolve_apply, if_neg reserved, outside b known, builtin]
    | none =>
      cases indexed : view.indexOf? tag.text with
      | some index =>
        refine settled_at (.ok (.global index tag)) fun b known => ?_
        subst known
        rw [resolve_apply, if_neg reserved, outside b rfl, builtin]
        dsimp only
        rw [indexOf?_eq, indexed]
      | none =>
        refine settled_at (.error ⟨.undefinedSymbol tag.text, tag.span⟩) fun b known => ?_
        subst known
        rw [resolve_apply, if_neg reserved, outside b rfl, builtin]
        dsimp only
        rw [indexOf?_eq, indexed]
        rfl

theorem distinctNames_settled (seen : List (String × Span)) (tags : List Tag) :
    (distinctNames seen tags).Settled defines := by
  unfold distinctNames
  split
  · exact refuse_settled _ _
  · exact .pure _

theorem bindFunction_settled {body : BindM Term} (parameters : List Tree) (inner : body.Settled defines) :
    (bindFunction parameters body).Settled defines := by
  refine (ofExcept_settled _).bind fun patterns => ?_
  refine (distinctNames_settled _ _).bind fun _ => ?_
  exact (withLocals_settled _ inner).bind fun _ => .pure _

theorem bindDefinition_settled {body : BindM Term} (tag : Tag) (parameters : List Tree) (recursive : Bool)
    (inner : body.Settled defines) : (bindDefinition tag parameters recursive body).Settled defines := by
  unfold bindDefinition
  split
  · exact (withLocals_settled [tag] (bindFunction_settled parameters inner)).bind fun _ => .pure _
  · exact bindFunction_settled parameters inner

theorem bindNamed_settled {rest : BindM Term} (tag : Tag) (value : Term) (inner : rest.Settled defines) :
    (bindNamed tag value rest).Settled defines := by
  refine (withUsed_settled tag inner).bind fun result => ?_
  obtain ⟨t, used⟩ := result
  dsimp only
  split
  · exact (warn_settled _ _ _).bind fun _ => .pure _
  · exact .pure _

theorem destructuring_settled (lhs : Tree) : (destructuring lhs).Settled defines := by
  unfold destructuring
  split
  · exact ofExcept_settled _
  · exact ofExcept_settled _
  · exact refuse_settled _ _

theorem bindDestructured_settled {rest : BindM Term} (pattern : Pattern) (value : Term)
    (inner : rest.Settled defines) : (bindDestructured pattern value rest).Settled defines :=
  (withLocals_settled pattern.locals inner).bind fun _ => .pure _

/-- An operation in front of its operand. -/
theorem applied_settled {operand : BindM Term} (tag : Tag) (inner : operand.Settled defines) :
    BindM.Settled defines (do
      let head ← resolve tag
      return Term.app head (← operand)) :=
  (resolve_settled tag).bind fun _ => Settled.bind inner fun _ => .pure _

namespace Tree

mutual

/-- The effect of binding an expression is settled by the view. -/
theorem bind_settled (t : Tree) : t.bind.Settled defines := by
  match t with
  | .int .. | .char .. | .str .. | .unit _ =>
    rw [bind]
    exact .pure _
  | .name tag =>
    rw [bind]
    exact resolve_settled tag
  | .placeholder span =>
    rw [bind]
    exact resolve_settled _
  | .apply function argument _ =>
    rw [bind]
    exact Settled.bind (bind_settled function) fun _ => Settled.bind (bind_settled argument) fun _ => .pure _
  | .infixOp operator left right =>
    rw [bind]
    refine (resolve_settled operator).bind fun _ => ?_
    exact Settled.bind (bind_settled left) fun _ => Settled.bind (bind_settled right) fun _ => .pure _
  | .prefixOp operator operand =>
    rw [bind]
    split
    · exact refuse_settled _ _
    · exact applied_settled operator (bind_settled operand)
  | .postfixOp operator operand =>
    rw [bind]
    exact applied_settled operator (bind_settled operand)
  | .mixfix parts operands =>
    rw [bind]
    exact (resolve_settled _).bind fun _ => Settled.bind (bindEach_settled operands) fun _ => .pure _
  | .bracket opening closing content =>
    rw [bind]
    exact applied_settled _ (bind_settled content)
  | .tuple items _ | .comma items _ | .list items _ =>
    rw [bind]
    exact Settled.bind (bindEach_settled items) fun _ => .pure _
  | .lambda _ pattern body =>
    rw [bind]
    exact bindFunction_settled _ (bind_settled body)
  | .sectionOf body _ =>
    rw [bind]
    exact (withLocals_settled [_] (bind_settled body)).bind fun _ => .pure _
  | .sequence items span =>
    rw [bind]
    exact bindBlock_settled [] span items
  | .data .. | .asPattern .. | .define .. | .declaration _ =>
    rw [bind]
    exact refuse_settled _ _

theorem bindEach_settled (items : List Tree) : (bindEach items).Settled defines := by
  match items with
  | [] =>
    rw [bindEach]
    exact .pure _
  | t :: rest =>
    rw [bindEach]
    exact Settled.bind (bind_settled t) fun _ => Settled.bind (bindEach_settled rest) fun _ => .pure _

theorem bindBlock_settled (defined : List (String × Span)) (span : Span) (items : List Tree) :
    (bindBlock defined span items).Settled defines := by
  match items with
  | [] =>
    rw [bindBlock]
    exact refuse_settled _ _
  | t :: rest =>
    have others (defined : List (String × Span)) : (bindBlock defined span rest).Settled defines :=
      bindBlock_settled defined span rest
    cases t with
    | declaration d =>
      rw [bindBlock]
      exact others defined
    | define tag lhs body =>
      rw [bindBlock]
      split
      · exact refuse_settled _ _
      split
      · exact refuse_settled _ _
      split
      · refine (distinctNames_settled _ _).bind fun seen => ?_
        refine Settled.bind (bindDefinition_settled _ _ _ (bind_settled body)) fun value => ?_
        exact bindNamed_settled _ value (others seen)
      · refine Settled.bind (destructuring_settled lhs) fun pattern => ?_
        refine (distinctNames_settled _ _).bind fun seen => ?_
        refine Settled.bind (bind_settled body) fun value => ?_
        exact bindDestructured_settled pattern value (others seen)
    | _ =>
      rw [bindBlock]
      · split
        · exact bind_settled _
        · exact Settled.bind (bind_settled _) fun _ => Settled.bind (others defined) fun _ => .pure _
      all_goals
        intros
        contradiction

end

end Tree

end MixfixLambda
