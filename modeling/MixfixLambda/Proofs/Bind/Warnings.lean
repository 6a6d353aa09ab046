import MixfixLambda.Proofs.Bind.Unused

/-!
# Warnings of modules

What the items of a source add to the binder, one after the other, with the warnings about the definitions inside
their blocks.
-/
namespace MixfixLambda

open BindM Binder

variable {built : Term → List LocalDefinition → Prop}

/-- The warnings about definitions that are not used. -/
def unusedOf (warnings : List BindWarning) : List BindWarning :=
  warnings.filter (·.kind == .unusedBinding)

theorem unusedOf_warnings (definitions : List LocalDefinition) :
    unusedOf (LocalDefinition.warnings definitions) = LocalDefinition.warnings definitions := by
  refine List.filter_eq_self.2 fun warning member => ?_
  obtain ⟨d, -, rfl⟩ := List.mem_map.1 member
  rfl

namespace Binder

/-- What items at top level add to a binder: globals, and a warning for each definition that is not used. Other
warnings are not counted. -/
structure Added (b : Binder) (globals : List Global) (definitions : List LocalDefinition) (after : Binder) : Prop where
  locals : after.locals = []
  globals : after.globals.toList = b.globals.toList ++ globals
  warnings : unusedOf after.warnings = (LocalDefinition.warnings definitions).reverse ++ unusedOf b.warnings

theorem Added.none {b : Binder} (top : b.locals = []) : b.Added [] [] b :=
  ⟨top, (List.append_nil _).symm, rfl⟩

theorem Added.trans {b middle after : Binder} {gs hs : List Global} {ds es : List LocalDefinition}
    (first : b.Added gs ds middle) (second : middle.Added hs es after) : b.Added (gs ++ hs) (ds ++ es) after where
  locals := second.locals
  globals := by rw [second.globals, first.globals, List.append_assoc]
  warnings := by
    rw [second.warnings, first.warnings]
    simp [LocalDefinition.warnings]

/-- There are no variables at top level that marks could be left on. -/
theorem added_noted {b : Binder} (top : b.locals = []) (used : Nat → Bool) (definitions : List LocalDefinition) :
    b.Added [] definitions (b.noted used definitions) where
  locals := by simp [noted, top, Local.mark]
  globals := (List.append_nil _).symm
  warnings := by
    have counted := congrArg List.reverse (unusedOf_warnings definitions)
    rw [unusedOf, ← List.filter_reverse] at counted
    rw [noted, unusedOf, List.filter_append, counted]
    rfl

end Binder

namespace BindM

variable {α β : Type} {work : BindM α} {post : α → List Global → List LocalDefinition → Prop}
  {after : β → List Global → List LocalDefinition → Prop}

/-- Work at top level. Which globals and definitions it adds is told by `post`, together with the result. -/
def Adds (work : BindM α) (post : α → List Global → List LocalDefinition → Prop) : Prop :=
  ∀ b a b', b.locals = [] → work b = (.ok a, b') → ∃ gs ds, post a gs ds ∧ b.Added gs ds b'

theorem Adds.pure {a : α} (holds : post a [] []) : (Pure.pure a : BindM α).Adds post := by
  rintro b _ _ top ⟨⟩
  exact ⟨_, _, holds, .none top⟩

theorem refuse_adds (cause : BindCause) (span : Span) : (refuse cause span : BindM α).Adds post := by
  rintro b _ _ _ ⟨⟩

theorem Adds.mono {weaker : α → List Global → List LocalDefinition → Prop} (strong : work.Adds post)
    (implies : ∀ a gs ds, post a gs ds → weaker a gs ds) : work.Adds weaker := by
  intro b a b' top success
  obtain ⟨gs, ds, holds, added⟩ := strong b a b' top success
  exact ⟨gs, ds, implies _ _ _ holds, added⟩

theorem Adds.bind {next : α → BindM β} (first : work.Adds post)
    (second : ∀ a gs ds, post a gs ds → (next a).Adds fun result hs es => after result (gs ++ hs) (ds ++ es)) :
    (work >>= next).Adds after := by
  intro b result b' top success
  obtain ⟨a, middle, outcome, success⟩ := bind_success success
  obtain ⟨gs, ds, holds, added⟩ := first b a middle top outcome
  obtain ⟨hs, es, holds', added'⟩ := second a gs ds holds middle result b' added.locals success
  exact ⟨_, _, holds', added.trans added'⟩

theorem Adds.map {f : α → β} (first : work.Adds post)
    (implies : ∀ a gs ds, post a gs ds → after (f a) gs ds) : (work >>= fun a => Pure.pure (f a)).Adds after :=
  first.bind fun a gs ds holds => .pure (by simpa using implies a gs ds holds)

/-- Binding an expression at top level adds no globals. -/
theorem Builds.adds {work : BindM Term} (inner : work.Builds built) :
    work.Adds fun t gs ds => gs = [] ∧ built t ds := by
  intro b t b' top success
  obtain ⟨used, ds, ⟨_, holds⟩, rfl⟩ := inner b t b' success
  exact ⟨[], ds, ⟨rfl, holds⟩, Binder.added_noted top used ds⟩

/-- Work that adds no definitions inside blocks. -/
abbrev Silent (work : BindM α) : Prop :=
  work.Adds fun _ _ ds => ds = []

theorem Silent.bind {next : α → BindM β} (first : work.Silent) (second : ∀ a, (next a).Silent) :
    (work >>= next).Silent := by
  refine Adds.bind first ?_
  rintro a gs _ rfl
  exact second a

theorem mapM_silent {work : α → BindM β} (each : ∀ a, (work a).Silent) (items : List α) :
    (items.mapM work).Silent := by
  induction items with
  | nil => exact .pure rfl
  | cons a rest ih =>
    rw [List.mapM_cons]
    exact (each a).bind fun _ => ih.bind fun _ => .pure rfl

theorem forIn_silent {body : α → PUnit → BindM (ForInStep PUnit)} (each : ∀ a r, (body a r).Silent)
    (items : List α) : (forIn items PUnit.unit body).Silent := by
  induction items with
  | nil => exact .pure rfl
  | cons a rest ih =>
    rw [List.forIn_cons]
    refine (each a PUnit.unit).bind fun result => ?_
    cases result with
    | done => exact .pure rfl
    | yield => exact ih

end BindM

namespace Binder

/-- A name of the prelude that is taken is warned about, but not as unused. -/
theorem checkGlobalName_adds (tag : Tag) : (checkGlobalName tag).Adds fun _ gs ds => gs = [] ∧ ds = [] := by
  intro b a b' top success
  obtain ⟨shadowed, other, rfl⟩ := checkGlobalName_success success
  have uncounted : unusedOf shadowed = [] :=
    List.filter_eq_nil_iff.2 fun w member => by rw [other w member]; decide
  refine ⟨[], [], ⟨rfl, rfl⟩, top, (List.append_nil _).symm, ?_⟩
  rw [unusedOf, List.filter_append, ← unusedOf, uncounted]
  rfl

theorem addGlobal_adds (tag : Tag) (term : Term) :
    (addGlobal tag term).Adds fun _ gs ds => gs = [⟨tag, term⟩] ∧ ds = [] := by
  rintro b _ _ top ⟨⟩
  exact ⟨_, _, ⟨rfl, rfl⟩, top, Array.toList_push .., rfl⟩

theorem addChecked_silent (tag : Tag) (term : Term) : (addChecked tag term).Silent :=
  Silent.bind ((checkGlobalName_adds tag).mono fun _ _ _ holds => holds.2) fun _ =>
    (addGlobal_adds tag term).mono fun _ _ _ holds => holds.2

theorem constructorOf_silent (alternative : Tree) : (constructorOf alternative).Silent := by
  unfold constructorOf
  split
  · split
    · exact refuse_adds _ _
    · exact .pure rfl
  · exact refuse_adds _ _

theorem defineType_silent (lhs : Tree) (alternatives : List Tree) : (defineType lhs alternatives).Silent := by
  unfold defineType
  split
  · exact refuse_adds _ _
  · refine (mapM_silent constructorOf_silent _).bind fun constructors => ?_
    refine (addChecked_silent _ _).bind fun _ => ?_
    refine (forIn_silent (fun _ _ => ?_) _).bind fun _ => ?_
    · exact (addChecked_silent _ _).bind fun _ => .pure rfl
    · refine (forIn_silent (fun _ _ => ?_) _).bind fun _ => .pure rfl
      exact (addChecked_silent _ _).bind fun _ => .pure rfl

theorem defineGlobal_adds (sign : Tag) (lhs body : Tree) :
    (defineGlobal lhs body).Adds fun _ gs ds => Tree.ItemBecomes (.define sign lhs body) gs none ds := by
  unfold defineGlobal
  split
  · exact refuse_adds _ _
  next tag parameters defines =>
  split
  · exact refuse_adds _ _
  refine (checkGlobalName_adds tag).bind ?_
  rintro _ _ _ ⟨rfl, rfl⟩
  refine (bindDefinition_builds tag parameters (body.mentions tag.text) body.bind_builds).adds.bind ?_
  rintro _ _ ds ⟨rfl, patterns, x, parts, rfl, inner⟩
  refine (addGlobal_adds tag _).mono ?_
  rintro _ _ _ ⟨rfl, rfl⟩
  rw [List.append_nil]
  exact .definition defines parts inner

theorem bindItem_adds (item : Tree) : (bindItem item).Adds fun x gs ds => Tree.ItemBecomes item gs x ds := by
  cases item with
  | declaration d => exact .pure .declaration
  | define sign lhs body =>
    unfold bindItem
    dsimp only
    split
    · refine (defineType_silent lhs _).map ?_
      rintro _ gs _ rfl
      exact .data gs
    · exact (defineGlobal_adds sign lhs body).map fun _ _ _ becomes => becomes
  | _ =>
    refine (Tree.bind_builds _).adds.map ?_
    rintro x _ ds ⟨rfl, inner⟩
    exact .expression rfl inner

theorem mapM_adds (items : List Tree) : (items.mapM bindItem).Adds fun values gs ds =>
    Tree.ItemsBecome items gs (values.filterMap id) ds := by
  induction items with
  | nil => exact .pure .nil
  | cons t rest ih =>
    rw [List.mapM_cons]
    refine (bindItem_adds t).bind fun x gs ds first => ?_
    refine ih.map fun values hs es others => ?_
    have both := Tree.ItemsBecome.cons first others
    cases x <;> exact both

theorem bindItems_adds (program : Tree) : (bindItems program).Adds fun value gs ds =>
    ∃ expressions, value = chainExpressions expressions ∧ Tree.ItemsBecome (topItems program) gs expressions ds :=
  (mapM_adds (topItems program)).map fun values _ _ become => ⟨values.filterMap id, rfl, become⟩

theorem finish_adds (expression : Option Term) (span : Span) : (finish expression span).Adds fun entry gs ds =>
    gs = [] ∧ ds = [] ∧ ∀ term ∈ expression, entry = .expression term := by
  cases expression with
  | some term => exact .pure ⟨rfl, rfl, fun _ same => Option.some.inj same ▸ rfl⟩
  | none =>
    intro b entry b' top success
    obtain ⟨index, definition, input, -, -, read, -⟩ := finish_main success
    obtain ⟨gs, ds, ⟨rfl, -, rfl⟩, added⟩ := (resolve_builds _).adds b input b' top read
    exact ⟨[], [], ⟨rfl, rfl, fun _ known => nomatch known⟩, added⟩

end Binder

theorem nodes_chainExpressions (expressions : List Term) :
    (expressions.flatMap Term.nodes).Sublist ((chainExpressions expressions).toList.flatMap Term.nodes) := by
  induction expressions with
  | nil => exact List.nil_sublist _
  | cons e rest ih =>
    have joined := List.Sublist.append_left ih e.nodes
    unfold chainExpressions
    cases chain : chainExpressions rest with
    | none => simpa [chain] using joined
    | some value =>
      rw [chain, Option.toList_some, List.flatMap_singleton] at joined
      rw [Option.toList_some, List.flatMap_singleton, List.flatMap_cons]
      exact joined.cons _

/-- How the definitions inside the blocks of a source show in the module that it becomes: each stands at a node of its
own, and the warnings are about those that are not used, one for each. -/
structure Module.Warned (m : Module) (t : Tree) (globals : List Global) (expressions : List Term)
    (definitions : List LocalDefinition) (warnings : List BindWarning) : Prop where
  made : Tree.ItemsBecome (topItems t) globals expressions definitions
  entry : ∀ term ∈ chainExpressions expressions, m.entry = .expression term
  names : definitions.map LocalDefinition.tag = (topItems t).flatMap Tree.itemNames
  inside : (definitions.map LocalDefinition.term).Subperm (globals.flatMap (·.term.nodes) ++ m.entry.term.nodes)
  warnings : unusedOf warnings = LocalDefinition.warnings definitions

theorem Module.warned_of_made {m : Module} {t : Tree} {globals : List Global} {expressions : List Term}
    {definitions : List LocalDefinition} {warnings : List BindWarning}
    (made : Tree.ItemsBecome (topItems t) globals expressions definitions)
    (entry : ∀ term ∈ chainExpressions expressions, m.entry = .expression term)
    (counted : unusedOf warnings = LocalDefinition.warnings definitions) :
    m.Warned t globals expressions definitions warnings := by
  refine ⟨made, entry, made.names, made.terms.trans ?_, counted⟩
  refine (List.Sublist.append_left ((nodes_chainExpressions expressions).trans ?_) _).subperm
  cases chain : chainExpressions expressions with
  | none => exact List.nil_sublist _
  | some term =>
    rw [entry term chain, Option.toList_some, List.flatMap_singleton]
    exact List.Sublist.refl _

/-- What a source becomes on top of a binder without warnings about unused definitions. -/
theorem bindOn_warned {b : Binder} (top : b.locals = []) (quiet : unusedOf b.warnings = []) {text : String} {m : Module}
    (bound : (bindOn (.ok b) text).result = .ok m) :
    ∃ t globals expressions definitions, parse text .module = .ok t ∧ m.globals.toList = b.globals.toList ++ globals ∧
      m.Warned t globals expressions definitions (bindOn (.ok b) text).warnings := by
  obtain ⟨t, expression, middle, b', parsed, items, finished, table, warnings⟩ := bindOn_success bound
  obtain ⟨globals, definitions, ⟨expressions, rfl, made⟩, added⟩ := bindItems_adds t b _ middle top items
  obtain ⟨_, _, ⟨rfl, rfl, entry⟩, ended⟩ := finish_adds _ _ middle m.entry b' added.locals finished
  have whole := added.trans ended
  rw [List.append_nil, List.append_nil] at whole
  refine ⟨t, globals, expressions, definitions, parsed, table ▸ whole.globals, Module.warned_of_made made entry ?_⟩
  have counted := congrArg List.reverse whole.warnings
  rwa [quiet, List.append_nil, List.reverse_reverse, unusedOf, ← List.filter_reverse, ← warnings] at counted

/-- A block whose definitions are used by themselves, shadowed or not meant to be used. -/
def blockSource : String :=
  "main _ =\n  x = 1\n  f n = f n\n  g x = x + 1\n  _quiet = 2\n  g 3"

/-- Whether a source binds, and the names of its unused definitions are the given ones. -/
def Bound.warnsOf (b : Bound) (names : List String) : Bool :=
  b.result.toOption.isSome && (unusedOf b.warnings).map BindWarning.name == names

/-- The prelude has no unused definitions. The same evaluation binds that block on top. -/
theorem bindOn_block : (Binder.ofSource (parseChars Prelude.chars .prelude)).toOption.any (fun b =>
    (unusedOf b.warnings).isEmpty && (bindOn (.ok b) blockSource).warnsOf ["f", "x"]) = true := by
  rw [Prelude.chars_eq]
  decide +kernel

/-- Every module is bound on top of a binder at top level that has not warned about unused definitions. -/
theorem Prelude.quiet : ∃ b, binder = .ok b ∧ b.locals = [] ∧ unusedOf b.warnings = [] ∧
    (bindOn (.ok b) blockSource).warnsOf ["f", "x"] = true := by
  obtain ⟨b, bound, evaluated⟩ := exists_ok_of_any bindOn_block
  rw [Bool.and_eq_true, List.isEmpty_iff] at evaluated
  exact ⟨b, binder_eq.trans bound, (Binder.ofSource_atTop bound).locals, evaluated⟩

/-- The warnings about unused definitions are about the definitions of a name or operator in a block, all over the
source, whose variable does not occur in the rest of the block, and whose name does not start with `_`. The rest of the
block is what the definition is applied around, so neither its own value nor a binder of the same name inside counts. -/
theorem bindModule_unused {text : String} {m : Module} (bound : (bindModule text).result = .ok m) :
    ∃ b t globals expressions definitions, Prelude.binder = .ok b ∧ parse text .module = .ok t ∧
      m.globals.toList = b.globals.toList ++ globals ∧
      m.Warned t globals expressions definitions (bindModule text).warnings ∧
      ∀ d ∈ definitions, d.isUnused = true ↔
        (∀ count tag, ¬(Term.var count tag).Beneath count d.rest) ∧ d.tag.text.toList.head? ≠ some '_' := by
  obtain ⟨b, prelude, top, quiet, -⟩ := Prelude.quiet
  rw [bindModule, prelude] at bound ⊢
  obtain ⟨t, globals, expressions, definitions, parsed, grown, warned⟩ := bindOn_warned top quiet bound
  exact ⟨b, t, globals, expressions, definitions, rfl, parsed, grown, warned, fun d _ => d.isUnused_iff⟩

/-- Of the definitions of that block, the one that only it itself uses and the one that another binder hides are
warned about. -/
theorem bindModule_unused_block : ∃ m definitions, (bindModule blockSource).result = .ok m ∧
    (LocalDefinition.warnings definitions).map BindWarning.name = ["f", "x"] ∧
    ∃ t globals expressions, m.Warned t globals expressions definitions (bindModule blockSource).warnings := by
  obtain ⟨b, prelude, -, -, warns⟩ := Prelude.quiet
  rw [← prelude, ← bindModule, Bound.warnsOf, Bool.and_eq_true, beq_iff_eq] at warns
  obtain ⟨m, bound⟩ := exists_ok warns.1
  obtain ⟨-, t, globals, expressions, definitions, -, -, -, warned, -⟩ := bindModule_unused bound
  refine ⟨m, definitions, bound, ?_, t, globals, expressions, warned⟩
  rw [← warned.warnings]
  exact warns.2

end MixfixLambda
