import MixfixLambda.Bind.Module
import MixfixLambda.Proofs.Bind.Binder

/-!
# Scopes of bound modules

The table of globals is stratified: the term of a global is closed and refers to earlier globals only.
Binding a source, on top of the prelude or of nothing, keeps the table so, and what a module runs is
closed and refers to globals of the table.
-/
namespace MixfixLambda

/-- Every global is closed and refers to earlier globals only. -/
def Stratified (globals : Array Global) : Prop :=
  ∀ (index : Nat) (definition : Global), globals[index]? = some definition →
    definition.term.Scoped 0 index

/-- A stratified table, and a closed term over it to run. -/
structure Module.WellScoped (m : Module) : Prop where
  globals : Stratified m.globals
  entry : m.entry.term.Scoped 0 m.globals.size

namespace Binder

/-- A binder between two items at top level. -/
structure AtTop (b : Binder) : Prop where
  named : b.Named
  locals : b.locals = []
  stratified : Stratified b.globals

theorem empty_atTop : empty.AtTop :=
  ⟨fun _ member => absurd member List.not_mem_nil, rfl, fun _ _ found => nomatch found⟩

theorem Agrees.atTop {b b' : Binder} (same : b.Agrees b') (top : b.AtTop) : b'.AtTop := by
  refine ⟨same.named top.named, ?_, same.globals ▸ top.stratified⟩
  have length := same.depth
  rw [top.locals] at length
  exact List.eq_nil_of_length_eq_zero length

end Binder

namespace BindM

variable {α β : Type}

/-- Work at top level. It only adds to the table of globals; where `before` holds of the size of the table,
and there is a result, `after` holds of the size it ends with and the result. -/
def Grows (before : Nat → Prop) (work : BindM α) (after : Nat → α → Prop) : Prop :=
  ∀ b a b', b.AtTop → before b.globals.size → work b = (.ok a, b') →
    b'.AtTop ∧ b.globals.size ≤ b'.globals.size ∧ after b'.globals.size a

theorem Grows.bind {work : BindM α} {next : α → BindM β} {before : Nat → Prop}
    {between : Nat → α → Prop} {after : Nat → β → Prop} (first : Grows before work between)
    (second : ∀ a, Grows (between · a) (next a) after) : Grows before (work >>= next) after := by
  intro b result b' top holds success
  obtain ⟨a, middle, outcome, success⟩ := bind_success success
  obtain ⟨top', larger, holds'⟩ := first b a middle top holds outcome
  obtain ⟨top'', larger', holds''⟩ := second a middle result b' top' holds' success
  exact ⟨top'', Nat.le_trans larger larger', holds''⟩

theorem Grows.pure {before : Nat → Prop} {after : Nat → α → Prop} {a : α}
    (holds : ∀ limit, before limit → after limit a) :
    Grows before (Pure.pure a : BindM α) after := by
  intro b result b' top holds' success
  cases success
  exact ⟨top, Nat.le_refl _, holds _ holds'⟩

theorem Grows.mono {work : BindM α} {before before' : Nat → Prop} {after after' : Nat → α → Prop}
    (strong : Grows before work after) (requires : ∀ limit, before' limit → before limit)
    (implies : ∀ limit a, after limit a → after' limit a) : Grows before' work after' := by
  intro b a b' top holds success
  obtain ⟨top', larger, holds'⟩ := strong b a b' top (requires _ holds) success
  exact ⟨top', larger, implies _ _ holds'⟩

/-- What stays true when the table grows is still true after the work. -/
theorem Grows.frame {work : BindM α} {before : Nat → Prop} {after : Nat → α → Prop}
    (inner : Grows before work after) (kept : Nat → Prop)
    (stays : ∀ limit limit', limit ≤ limit' → kept limit → kept limit') :
    Grows (fun limit => before limit ∧ kept limit) work
      fun limit a => after limit a ∧ kept limit := by
  intro b a b' top holds success
  obtain ⟨top', larger, holds'⟩ := inner b a b' top holds.1 success
  exact ⟨top', larger, holds', stays _ _ larger holds.2⟩

theorem Yields.grows {work : BindM α} {post : Nat → Nat → α → Prop} (inner : work.Yields post) :
    Grows (fun _ => True) work fun limit a => post 0 limit a := by
  intro b a b' top _ success
  obtain ⟨same, holds⟩ := inner b a b' top.named success
  rw [top.locals, ← same.globals] at holds
  exact ⟨same.atTop top, Nat.le_of_eq (by rw [same.globals]), holds⟩

/-- One after the other, from left to right; what holds of an early result must go on to hold. -/
theorem mapM_grows {work : α → BindM β} {each : Nat → β → Prop}
    (stays : ∀ b limit limit', limit ≤ limit' → each limit b → each limit' b)
    (inner : ∀ a, Grows (fun _ => True) (work a) each) (items : List α) :
    Grows (fun _ => True) (items.mapM work) fun limit results => ∀ b ∈ results, each limit b := by
  induction items with
  | nil => exact .pure fun _ _ b member => absurd member List.not_mem_nil
  | cons a rest ih =>
    rw [List.mapM_cons]
    refine (inner a).bind fun first => ?_
    have others : Grows (each · first) (rest.mapM work) fun limit results =>
        (∀ b ∈ results, each limit b) ∧ each limit first :=
      (ih.frame (each · first) (stays first)).mono (fun _ holds => ⟨trivial, holds⟩)
        fun _ _ holds => holds
    refine others.bind fun results => ?_
    exact .pure fun limit holds => List.forall_mem_cons.mpr ⟨holds.2, holds.1⟩

theorem forIn_grows {body : α → PUnit → BindM (ForInStep PUnit)} (items : List α)
    (inner : ∀ a ∈ items, ∀ r, Grows (fun _ => True) (body a r) fun _ _ => True) :
    Grows (fun _ => True) (forIn items PUnit.unit body) fun _ _ => True := by
  induction items with
  | nil => exact .pure fun _ _ => trivial
  | cons a rest ih =>
    rw [List.forIn_cons]
    obtain ⟨first, others⟩ := List.forall_mem_cons.mp inner
    refine (first PUnit.unit).bind fun result => ?_
    cases result with
    | done => exact .pure fun _ _ => trivial
    | yield => exact ih others

end BindM

namespace Binder

open BindM

/-- A name that passes is free, or the newest global of the name is of the prelude and the new one of a module. -/
theorem checkGlobalName_cases {tag : Tag} {b b' : Binder} (success : checkGlobalName tag b = (.ok (), b')) :
    Builtin.ofName? tag.text = none ∧
      ((b.indexOf? tag.text).bind (b.globals[·]?) = none ∧ b' = b ∨
        ∃ other, (b.indexOf? tag.text).bind (b.globals[·]?) = some other ∧
          (other.tag.origin = .prelude ∧ tag.origin = .module) ∧
            b' = { b with warnings := ⟨.shadowedPrelude, tag.text, tag.span⟩ :: b.warnings }) := by
  unfold checkGlobalName at success
  split at success
  · cases success
  next user =>
  refine ⟨by simpa using user, ?_⟩
  dsimp only at success
  rw [bind_apply, get_apply] at success
  dsimp only at success
  cases taken : (b.indexOf? tag.text).bind (b.globals[·]?) with
  | none =>
    rw [taken] at success
    cases success
    exact .inl ⟨rfl, rfl⟩
  | some other =>
    rw [taken] at success
    dsimp only at success
    split at success
    · next origins =>
      cases success
      exact .inr ⟨other, rfl, by simpa using origins, rfl⟩
    · cases success

/-- A name that passes does so with no more than a warning. -/
theorem checkGlobalName_success {tag : Tag} {b b' : Binder} (success : checkGlobalName tag b = (.ok (), b')) :
    ∃ shadowed : List BindWarning, (∀ w ∈ shadowed, w.kind = .shadowedPrelude) ∧
      b' = { b with warnings := shadowed ++ b.warnings } := by
  rcases (checkGlobalName_cases success).2 with ⟨-, rfl⟩ | ⟨other, -, -, rfl⟩
  · exact ⟨[], fun _ member => absurd member List.not_mem_nil, rfl⟩
  · exact ⟨[_], fun w member => List.mem_singleton.1 member ▸ rfl, rfl⟩

theorem checkGlobalName_yields (tag : Tag) : (checkGlobalName tag).Yields fun _ _ _ => True := by
  intro b a b' named success
  obtain ⟨shadowed, -, rfl⟩ := checkGlobalName_success success
  exact ⟨⟨rfl, rfl, rfl⟩, trivial⟩

/-- A term that fits the table so far keeps the table stratified. -/
theorem addGlobal_grows (tag : Tag) (term : Term) :
    Grows (fun limit => term.Scoped 0 limit) (addGlobal tag term) fun _ _ => True := by
  intro b a b' top inside success
  cases success
  refine ⟨⟨?_, top.locals, ?_⟩, by simp, trivial⟩
  · intro entry member
    simp only [Array.size_push]
    rcases List.mem_cons.mp member with rfl | old
    · exact Nat.lt_succ_self _
    · exact Nat.lt_succ_of_lt (top.named entry old)
  · dsimp only [Stratified]
    intro index definition found
    rw [Array.getElem?_push] at found
    split at found
    · next last =>
      cases found
      exact last ▸ inside
    · exact top.stratified index definition found

theorem addChecked_grows (tag : Tag) (term : Term) (closed : ∀ limit, term.Scoped 0 limit) :
    Grows (fun _ => True) (addChecked tag term) fun _ _ => True :=
  (checkGlobalName_yields tag).grows.bind fun _ =>
    (addGlobal_grows tag term).mono (fun limit _ => closed limit) fun _ _ _ => trivial

theorem refuse_grows {α : Type} (cause : BindCause) (span : Span) (after : Nat → α → Prop) :
    Grows (fun _ => True) (refuse cause span) after :=
  (refuse_yields cause span fun _ => after).grows

theorem defineGlobal_grows (lhs body : Tree) :
    Grows (fun _ => True) (defineGlobal lhs body) fun _ _ => True := by
  unfold defineGlobal
  split
  · exact refuse_grows _ _ _
  · next tag parameters _ =>
    have defined : Grows (fun _ => True) (do
        checkGlobalName tag
        addGlobal tag (← bindDefinition tag parameters (body.mentions tag.text) body.bind))
        fun _ _ => True := by
      refine (checkGlobalName_yields tag).grows.bind fun _ => ?_
      refine (bindDefinition_scopes tag parameters _ body.bind_scopes).grows.bind fun term => ?_
      exact addGlobal_grows tag term
    split
    · exact refuse_grows _ _ _
    · exact defined

theorem constructorOf_grows (alternative : Tree) :
    Grows (fun _ => True) (constructorOf alternative) fun _ _ => True := by
  unfold constructorOf
  split
  · split
    · exact refuse_grows _ _ _
    · exact .pure fun _ _ => trivial
  · exact refuse_grows _ _ _

theorem defineType_grows (lhs : Tree) (alternatives : List Tree) :
    Grows (fun _ => True) (defineType lhs alternatives) fun _ _ => True := by
  unfold defineType
  split
  · exact refuse_grows _ _ _
  · have listed := mapM_grows (fun _ _ _ _ _ => trivial) constructorOf_grows alternatives
    refine (listed.mono (fun _ => id) fun _ _ _ => trivial).bind fun constructors => ?_
    refine (addChecked_grows _ _ fun _ => Encoding.dispatcher_scoped _).bind fun _ => ?_
    refine (forIn_grows _ fun item member _ => ?_).bind fun _ => ?_
    · have inside : item.2 < (constructors.map (·.2)).length := by
        rw [List.length_map]
        exact List.snd_lt_of_mem_zipIdx member
      exact (addChecked_grows _ _ fun _ => Encoding.constructor_scoped inside).bind
        fun _ => .pure fun _ _ => trivial
    · refine (forIn_grows _ fun item _ _ => ?_).bind fun _ => .pure fun _ _ => trivial
      exact (addChecked_grows _ _ fun _ => Encoding.caseDispatcher_scoped _ _).bind
        fun _ => .pure fun _ _ => trivial

theorem bindItem_grows (item : Tree) :
    Grows (fun _ => True) (bindItem item) fun limit result =>
      ∀ term ∈ result, term.Scoped 0 limit := by
  have none_closed (limit : Nat) : ∀ term ∈ (none : Option Term), term.Scoped 0 limit :=
    fun _ member => nomatch member
  cases item with
  | declaration d => exact .pure fun limit _ => none_closed limit
  | define tag lhs body =>
    unfold bindItem
    dsimp only
    split
    · exact (defineType_grows lhs _).bind fun _ => .pure fun limit _ => none_closed limit
    · exact (defineGlobal_grows lhs body).bind fun _ => .pure fun limit _ => none_closed limit
  | _ =>
    refine (Tree.bind_scopes _).grows.bind fun term => ?_
    exact .pure fun limit inside term' member => Option.some.inj member ▸ inside

/-- What all expressions have and applications keep, their value has. -/
theorem chainExpressions_keeps {P : Term → Prop} (apply : ∀ e value, P e → P value → P (.app e value))
    (terms : List Term) (each : ∀ term ∈ terms, P term) : ∀ whole ∈ chainExpressions terms, P whole := by
  induction terms with
  | nil => exact fun _ member => nomatch member
  | cons e rest ih =>
    obtain ⟨first, others⟩ := List.forall_mem_cons.mp each
    unfold chainExpressions
    cases chain : chainExpressions rest with
    | none => exact fun whole member => Option.some.inj member ▸ first
    | some value => exact fun whole member => Option.some.inj member ▸ apply e value first (ih others value chain)

theorem bindItems_grows (program : Tree) :
    Grows (fun _ => True) (bindItems program) fun limit result =>
      ∀ term ∈ result, term.Scoped 0 limit := by
  refine (mapM_grows ?_ bindItem_grows (topItems program)).bind fun results => ?_
  · intro result limit limit' larger inside term member
    exact (inside term member).mono (Nat.le_refl 0) larger
  · refine .pure fun limit inside => chainExpressions_keeps (fun _ _ => And.intro) _ fun term member => ?_
    obtain ⟨result, listed, same⟩ := List.mem_filterMap.mp member
    exact inside result listed term same

/-- Where there is no expression, `main` is applied to the input. -/
theorem finish_main {span : Span} {b b' : Binder} {entry : Entry} (success : finish none span b = (.ok entry, b')) :
    ∃ index definition input, b.indexOf? "main" = some index ∧ b.globals[index]? = some definition ∧
      resolve (.synthetic "input_from") b = (.ok input, b') ∧
      entry = .main (.app (.global index definition.tag) (.app input (.int 0))) := by
  unfold finish at success
  dsimp only at success
  rw [bind_apply, get_apply] at success
  dsimp only at success
  cases search : (b.indexOf? "main").bind fun index => (b.globals[index]?).map (index, ·.tag) with
  | none =>
    rw [search] at success
    cases success
  | some main =>
    rw [search] at success
    obtain ⟨index, known, found⟩ := Option.bind_eq_some_iff.mp search
    obtain ⟨definition, here, rfl⟩ := Option.map_eq_some_iff.mp found
    obtain ⟨input, middle, read, returned⟩ := bind_success success
    cases returned
    exact ⟨index, definition, input, known, here, read, rfl⟩

theorem finish_grows (expression : Option Term) (span : Span) :
    Grows (fun limit => ∀ term ∈ expression, term.Scoped 0 limit) (finish expression span)
      fun limit entry => entry.term.Scoped 0 limit := by
  cases expression with
  | some term => exact .pure fun limit inside => inside term rfl
  | none =>
    intro b entry b' top _ success
    obtain ⟨index, definition, input, known, -, read, rfl⟩ := finish_main success
    obtain ⟨top', larger, holds⟩ := (resolve_yields _).grows b input b' top trivial read
    exact ⟨top', larger, Nat.lt_of_lt_of_le (indexOf?_lt top.named known) larger, holds, trivial⟩

end Binder

/-- A source that is bound on its own has a tree, whose items have been bound. -/
theorem Binder.ofSource_success {parsed : Except ParseError Tree} {b : Binder}
    (bound : Binder.ofSource parsed = .ok b) :
    ∃ t expression, parsed = .ok t ∧ Binder.bindItems t Binder.empty = (.ok expression, b) := by
  unfold Binder.ofSource at bound
  cases parsed with
  | error e => cases bound
  | ok t =>
    dsimp only at bound
    split at bound
    · cases bound
    · next expression _ outcome =>
      cases bound
      exact ⟨t, expression, rfl, outcome⟩

theorem Binder.ofSource_atTop {parsed : Except ParseError Tree} {b : Binder}
    (bound : Binder.ofSource parsed = .ok b) : b.AtTop := by
  obtain ⟨t, expression, -, items⟩ := Binder.ofSource_success bound
  exact (Binder.bindItems_grows t _ expression b Binder.empty_atTop trivial items).1

/-- A source that binds has a tree, whose items and entry have been bound one after the other. -/
theorem bindOn_success {b : Binder} {text : String} {m : Module} (bound : (bindOn (.ok b) text).result = .ok m) :
    ∃ t expression middle b', parse text .module = .ok t ∧ Binder.bindItems t b = (.ok expression, middle) ∧
      Binder.finish expression (Span.point text.utf8ByteSize) middle = (.ok m.entry, b') ∧ m.globals = b'.globals ∧
      (bindOn (.ok b) text).warnings = b'.warnings.reverse := by
  unfold bindOn at bound ⊢
  dsimp only at bound ⊢
  cases parsed : parse text .module with
  | error e =>
    rw [parsed] at bound
    cases bound
  | ok t =>
    rw [parsed] at bound
    dsimp only at bound ⊢
    split at bound
    · cases bound
    · next entry b' outcome =>
      cases bound
      obtain ⟨expression, middle, items, finished⟩ := BindM.bind_success outcome
      exact ⟨t, expression, middle, b', rfl, items, finished, rfl, rfl⟩

/-- A module that binds has been bound on top of the binder of the prelude. -/
theorem bindModule_success {text : String} {m : Module} (bound : (bindModule text).result = .ok m) :
    ∃ b, Prelude.binder = .ok b ∧ (bindOn (.ok b) text).result = .ok m := by
  -- The binder of the prelude is only named: unfolding it would bind the prelude.
  change (bindOn Prelude.binder text).result = .ok m at bound
  cases prelude : Prelude.binder with
  | error e =>
    rw [prelude] at bound
    cases bound
  | ok b =>
    rw [prelude] at bound
    exact ⟨b, rfl, bound⟩

/-- A source that is bound on top of a binder at top level has a stratified table and a closed entry. -/
theorem bindOn_wellScoped {b : Binder} (top : b.AtTop) {text : String} {m : Module}
    (bound : (bindOn (.ok b) text).result = .ok m) : m.WellScoped := by
  obtain ⟨t, expression, middle, b', -, items, finished, globals, -⟩ := bindOn_success bound
  obtain ⟨top, -, closed⟩ := Binder.bindItems_grows t b expression middle top trivial items
  obtain ⟨top, -, closed⟩ := Binder.finish_grows expression _ middle m.entry b' top closed finished
  rw [← globals] at closed
  exact ⟨globals ▸ top.stratified, closed⟩

/-- Every module that binds has a stratified table and a closed entry. -/
theorem bindModule_wellScoped {text : String} {m : Module}
    (bound : (bindModule text).result = .ok m) : m.WellScoped := by
  obtain ⟨b, prelude, bound⟩ := bindModule_success bound
  exact bindOn_wellScoped (Binder.ofSource_atTop prelude) bound

end MixfixLambda
