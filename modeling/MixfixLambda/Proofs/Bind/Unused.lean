import MixfixLambda.Proofs.Bind.Uses

/-!
# Unused definitions

Binding marks a variable when it looks it up, and warns about a definition when the rest of its block has left it
unmarked. The marks are those of the variables that the bound term uses, so the warnings are about the definitions
whose variable does not occur in the rest of their block.
-/
namespace MixfixLambda

namespace Binder

/-- The binder with marks on more variables, and a warning for each definition that is not used. -/
def noted (b : Binder) (used : Nat → Bool) (definitions : List LocalDefinition) : Binder :=
  { b with
    locals := Local.mark used b.locals
    warnings := (LocalDefinition.warnings definitions).reverse ++ b.warnings }

@[simp]
theorem noted_none (b : Binder) : b.noted (fun _ => false) [] = b := by
  simp [noted, LocalDefinition.warnings]

theorem noted_noted (b : Binder) (used also : Nat → Bool) (ds es : List LocalDefinition) :
    (b.noted used ds).noted also es = b.noted (fun depth => used depth || also depth) (ds ++ es) := by
  simp [noted, LocalDefinition.warnings, Local.mark_mark]

end Binder

namespace BindM

open Binder

variable {α β : Type} {work : BindM α}

/-- Work that leaves the binder as it is when it succeeds. -/
def Still (work : BindM α) (post : α → Prop) : Prop :=
  ∀ b a b', work b = (.ok a, b') → b' = b ∧ post a

theorem refuse_still (cause : BindCause) (span : Span) (post : α → Prop) : (refuse cause span).Still post := by
  rintro b _ _ ⟨⟩

theorem ofExcept_still (outcome : Except BindError α) :
    (ofExcept outcome : BindM α).Still fun a => outcome = .ok a := by
  cases outcome with
  | error e => exact refuse_still e.cause e.span _
  | ok a =>
    rintro b _ _ ⟨⟩
    exact ⟨rfl, rfl⟩

/-- Work that leaves nothing but marks and warnings of unused definitions behind. Which ones is told by `post`, together
with the result. -/
def Tracks (work : BindM α) (post : α → (Nat → Bool) → List LocalDefinition → Prop) : Prop :=
  ∀ b a b', work b = (.ok a, b') → ∃ used ds, post a used ds ∧ b' = b.noted used ds

variable {post : α → (Nat → Bool) → List LocalDefinition → Prop}
  {after : β → (Nat → Bool) → List LocalDefinition → Prop}

theorem Tracks.pure {a : α} (holds : post a (fun _ => false) []) : (Pure.pure a : BindM α).Tracks post := by
  rintro b _ _ ⟨⟩
  exact ⟨_, _, holds, (noted_none b).symm⟩

theorem refuse_tracks (cause : BindCause) (span : Span) : (refuse cause span : BindM α).Tracks post := by
  rintro b _ _ ⟨⟩

theorem Tracks.mono {weaker : α → (Nat → Bool) → List LocalDefinition → Prop} (strong : work.Tracks post)
    (implies : ∀ a used ds, post a used ds → weaker a used ds) : work.Tracks weaker := by
  intro b a b' success
  obtain ⟨used, ds, holds, left⟩ := strong b a b' success
  exact ⟨used, ds, implies _ _ _ holds, left⟩

/-- One after the other: marks and warnings add up. -/
theorem Tracks.bind {next : α → BindM β} (first : work.Tracks post)
    (second : ∀ a used ds, post a used ds → (next a).Tracks fun result also es =>
      after result (fun depth => used depth || also depth) (ds ++ es)) : (work >>= next).Tracks after := by
  intro b result b' success
  obtain ⟨a, middle, outcome, success⟩ := bind_success success
  obtain ⟨used, ds, holds, rfl⟩ := first b a middle outcome
  obtain ⟨also, es, holds', rfl⟩ := second a used ds holds _ result b' success
  exact ⟨_, _, holds', noted_noted ..⟩

theorem Tracks.map {f : α → β} (first : work.Tracks post)
    (implies : ∀ a used ds, post a used ds → after (f a) used ds) :
    (work >>= fun a => Pure.pure (f a)).Tracks after :=
  first.bind fun a used ds holds => .pure (by simpa using implies a used ds holds)

/-- Work that leaves the binder as it is comes first unnoticed. -/
theorem Still.bind {found : α → Prop} {next : α → BindM β} (still : work.Still found)
    (second : ∀ a, found a → (next a).Tracks after) : (work >>= next).Tracks after := by
  intro b result b' success
  obtain ⟨a, middle, outcome, continued⟩ := bind_success success
  obtain ⟨rfl, holds⟩ := still b a middle outcome
  exact second a holds middle result b' continued

/-- Variables that go out of scope take their marks with them. -/
theorem noted_outside (tags : List Tag) (b : Binder) (deep : Nat → Bool) (ds : List LocalDefinition) :
    { (inside tags b).noted deep ds with locals := ((inside tags b).noted deep ds).locals.drop tags.length } =
      b.noted (fun depth => deep (tags.length + depth)) ds := by
  have outer : (inside tags b).locals.drop tags.length = b.locals := List.drop_left' (by simp)
  simp only [noted, Local.drop_mark, outer]
  rfl

theorem withLocals_tracks (tags : List Tag) (inner : work.Tracks post) :
    (withLocals tags work).Tracks fun a used ds =>
      ∃ deep, post a deep ds ∧ used = fun depth => deep (tags.length + depth) := by
  intro b a b' success
  rcases outcome : work (inside tags b) with ⟨result, left⟩
  rw [withLocals_of_ran outcome] at success
  cases success
  obtain ⟨deep, ds, holds, rfl⟩ := inner _ a left outcome
  exact ⟨_, ds, ⟨deep, holds, rfl⟩, noted_outside tags b deep ds⟩

/-- Whether a variable has been used is told when its scope ends. -/
theorem withUsed_tracks (tag : Tag) (inner : work.Tracks post) :
    (withLocals [tag] (do
      let a ← work
      return (a, ← innermostUsed))).Tracks fun result used ds =>
        ∃ deep, post result.1 deep ds ∧ result.2 = deep 0 ∧ used = fun depth => deep (1 + depth) := by
  intro b result b' success
  rcases outcome : work (inside [tag] b) with ⟨answer, left⟩
  rw [withUsed_apply outcome] at success
  cases answer with
  | error e => cases success
  | ok a =>
    cases success
    obtain ⟨deep, ds, holds, rfl⟩ := inner _ a left outcome
    refine ⟨_, ds, ⟨deep, holds, ?_, rfl⟩, noted_outside [tag] b deep ds⟩
    simp [noted, inside, Local.mark]

end BindM

open BindM Binder

/-- Work that builds a term and marks the variables that the term uses. What the term is built from, and with which
definitions, is told by `built`. -/
def BindM.Builds (work : BindM Term) (built : Term → List LocalDefinition → Prop) : Prop :=
  work.Tracks fun t used ds => used = t.uses ∧ built t ds

variable {built : Term → List LocalDefinition → Prop}

namespace BindM

variable {β : Type} {work : BindM Term} {after : β → (Nat → Bool) → List LocalDefinition → Prop}

theorem Builds.mono {weaker : Term → List LocalDefinition → Prop} (strong : work.Builds built)
    (implies : ∀ t ds, built t ds → weaker t ds) : work.Builds weaker :=
  Tracks.mono strong fun t _ ds holds => ⟨holds.1, implies t ds holds.2⟩

theorem Builds.bind {next : Term → BindM β} (first : work.Builds built)
    (second : ∀ t ds, built t ds → (next t).Tracks fun result also es =>
      after result (fun depth => t.uses depth || also depth) (ds ++ es)) : (work >>= next).Tracks after := by
  refine Tracks.bind first fun t used ds holds => ?_
  obtain ⟨rfl, holds⟩ := holds
  exact second t ds holds

theorem Builds.map {f : Term → β} (first : work.Builds built)
    (implies : ∀ t ds, built t ds → after (f t) t.uses ds) : (work >>= fun t => Pure.pure (f t)).Tracks after := by
  refine Tracks.map first fun t used ds holds => ?_
  obtain ⟨rfl, holds⟩ := holds
  exact implies t ds holds

end BindM

theorem closed_builds {t : Term} (closed : t.Scoped 0 0) (holds : built t []) : BindM.Builds (pure t) built :=
  .pure ⟨closed.uses_none.symm, holds⟩

/-- A lookup marks the variable that it finds. -/
theorem resolve_builds (tag : Tag) : (resolve tag).Builds fun head ds => head.name? = some tag ∧ ds = [] := by
  intro b t b' success
  rw [resolve_apply] at success
  split at success
  · cases success
  split at success
  · next depth found =>
    cases success
    refine ⟨(· == depth), [], ⟨rfl, rfl, rfl⟩, ?_⟩
    rw [noted, Local.modify_eq_mark]
    rfl
  split at success
  · cases success
    exact ⟨_, [], ⟨rfl, rfl, rfl⟩, (noted_none b).symm⟩
  split at success
  · cases success
    exact ⟨_, [], ⟨rfl, rfl, rfl⟩, (noted_none b).symm⟩
  · cases success

theorem distinctNames_still (seen : List (String × Span)) (tags : List Tag) :
    (distinctNames seen tags).Still fun _ => True := by
  unfold distinctNames
  split
  · exact refuse_still _ _ _
  · rintro b _ _ ⟨⟩
    exact ⟨rfl, trivial⟩

theorem destructuring_still (lhs : Tree) :
    (destructuring lhs).Still fun pattern => Pattern.ofTree lhs = .ok pattern := by
  unfold destructuring
  split
  · exact ofExcept_still _
  · exact ofExcept_still _
  · exact refuse_still _ _ _

theorem bindFunction_builds {body : BindM Term} (parameters : List Tree) (inner : body.Builds built) :
    (bindFunction parameters body).Builds fun t ds => ∃ patterns x, Pattern.ofTrees parameters = .ok patterns ∧
      t = Pattern.abstractAll x patterns ∧ built x ds := by
  refine (ofExcept_still _).bind fun patterns parts => ?_
  refine (distinctNames_still _ _).bind fun _ _ => ?_
  refine (withLocals_tracks _ inner).map fun x used ds => ?_
  rintro ⟨_, ⟨rfl, holds⟩, rfl⟩
  exact ⟨funext fun depth => (Pattern.uses_abstractAll x patterns depth).symm, patterns, x, parts, rfl, holds⟩

/-- What a recursive definition uses of itself is no use of the variable that it defines. -/
theorem bindDefinition_builds {body : BindM Term} (tag : Tag) (parameters : List Tree) (recursive : Bool)
    (inner : body.Builds built) : (bindDefinition tag parameters recursive body).Builds fun t ds =>
      ∃ patterns x, Pattern.ofTrees parameters = .ok patterns ∧ t = definitionTerm tag recursive patterns x ∧
        built x ds := by
  have function := bindFunction_builds parameters inner
  unfold bindDefinition
  cases recursive with
  | false => exact function
  | true =>
    refine (withLocals_tracks [tag] function).map fun t used ds => ?_
    rintro ⟨_, ⟨rfl, patterns, x, parts, rfl, holds⟩, rfl⟩
    refine ⟨funext fun depth => ?_, patterns, x, parts, rfl, holds⟩
    have closed := congrFun (Term.Scoped.uses_none Encoding.fix_scoped) depth
    rw [Term.uses, closed, Bool.false_or, Term.uses, List.length_singleton, Nat.add_comm]

/-- A definition is counted with the warning that it is given, or with none. -/
theorem warned_tracks {α : Type} (d : LocalDefinition) (a : α) :
    (if d.isUnused then do
        warn .unusedBinding d.tag.text d.tag.span
        return a
      else pure a : BindM α).Tracks fun result used ds => result = a ∧ used = (fun _ => false) ∧ ds = [d] := by
  intro b result b' success
  cases unused : d.isUnused with
  | true =>
    rw [if_pos unused] at success
    cases success
    refine ⟨_, _, ⟨rfl, rfl, rfl⟩, ?_⟩
    simp [noted, LocalDefinition.warnings, LocalDefinition.warning, unused]
  | false =>
    rw [if_neg (by simp [unused])] at success
    cases success
    refine ⟨_, _, ⟨rfl, rfl, rfl⟩, ?_⟩
    simp [noted, LocalDefinition.warnings, unused]

theorem bindNamed_tracks {rest : BindM Term} (tag : Tag) (value : Term) (inner : rest.Builds built) :
    (bindNamed tag value rest).Tracks fun t used es => ∃ x ds, built x ds ∧ used = (Term.lam tag x).uses ∧
      t = (LocalDefinition.mk tag x value).term ∧ es = ds ++ [⟨tag, x, value⟩] := by
  refine (withUsed_tracks tag inner).bind fun result used ds holds => ?_
  obtain ⟨x, seen⟩ := result
  obtain ⟨_, ⟨rfl, holds⟩, flag, rfl⟩ := holds
  dsimp only at holds flag ⊢
  subst flag
  refine (warned_tracks ⟨tag, x, value⟩ _).mono fun t also es => ?_
  rintro ⟨rfl, rfl, rfl⟩
  refine ⟨x, ds, holds, funext fun depth => ?_, rfl, rfl⟩
  rw [Bool.or_false, Term.uses, Nat.add_comm]

theorem bindDestructured_tracks {rest : BindM Term} (pattern : Pattern) (value : Term) (inner : rest.Builds built) :
    (bindDestructured pattern value rest).Tracks fun t used ds => ∃ x, built x ds ∧
      used = (pattern.abstract x).uses ∧ t = .app (pattern.abstract x) value := by
  refine (withLocals_tracks pattern.locals inner).map fun x used ds => ?_
  rintro ⟨_, ⟨rfl, holds⟩, rfl⟩
  exact ⟨x, holds, funext fun depth => (Pattern.uses_abstract x pattern depth).symm, rfl⟩

/-- An operation in front of its operand. -/
theorem applied_builds {operand : BindM Term} (tag : Tag) (inner : operand.Builds built) :
    BindM.Builds (do
      let head ← resolve tag
      return .app head (← operand)) fun t ds => ∃ head x, head.name? = some tag ∧ t = .app head x ∧ built x ds := by
  refine (resolve_builds tag).bind ?_
  rintro head _ ⟨named, rfl⟩
  exact inner.map fun x ds holds => ⟨rfl, head, x, named, rfl, holds⟩

namespace Tree

mutual

/-- The marks that an expression leaves are those of the variables that its term uses, and the warnings are about the
definitions in its blocks that are not used. -/
theorem bind_builds (t : Tree) : t.bind.Builds (Becomes t) := by
  match t with
  | .int .. =>
    rw [bind]
    exact closed_builds trivial .int
  | .char .. =>
    rw [bind]
    exact closed_builds trivial .char
  | .str bytes _ =>
    rw [bind]
    exact closed_builds (Encoding.string_scoped bytes) .str
  | .unit _ =>
    rw [bind]
    exact closed_builds Encoding.identity_scoped .unit
  | .name tag =>
    rw [bind]
    refine (resolve_builds tag).mono ?_
    rintro head _ ⟨named, rfl⟩
    exact .name named
  | .placeholder span =>
    rw [bind]
    refine (resolve_builds _).mono ?_
    rintro head _ ⟨named, rfl⟩
    exact .placeholder named
  | .apply function argument _ =>
    rw [bind]
    refine (bind_builds function).bind fun f ds first => ?_
    exact (bind_builds argument).map fun x es second => ⟨rfl, .apply first second⟩
  | .infixOp operator left right =>
    rw [bind]
    refine (resolve_builds operator).bind ?_
    rintro head _ ⟨named, rfl⟩
    refine (bind_builds left).bind fun x ds first => ?_
    refine (bind_builds right).map fun y es second => ?_
    have whole : Becomes (.infixOp operator left right) (.applyAll head [x, y]) (ds ++ es) :=
      .infixOp named first second
    exact ⟨funext fun depth => (Bool.or_assoc ..).symm, whole⟩
  | .prefixOp operator operand =>
    rw [bind]
    split
    · exact refuse_tracks _ _
    · refine (applied_builds operator (bind_builds operand)).mono ?_
      rintro _ ds ⟨head, x, named, rfl, inner⟩
      exact .prefixOp named inner
  | .postfixOp operator operand =>
    rw [bind]
    refine (applied_builds operator (bind_builds operand)).mono ?_
    rintro _ ds ⟨head, x, named, rfl, inner⟩
    exact .postfixOp named inner
  | .mixfix parts operands =>
    rw [bind]
    refine (resolve_builds _).bind ?_
    rintro head _ ⟨named, rfl⟩
    refine Tracks.map (bindEach_tracks operands) fun xs _ ds ⟨used, each⟩ => ?_
    subst used
    exact ⟨funext fun depth => (Term.uses_applyAll head xs depth).symm, .mixfix named each⟩
  | .bracket opening closing content =>
    rw [bind]
    refine (applied_builds _ (bind_builds content)).mono ?_
    rintro _ ds ⟨head, x, named, rfl, inner⟩
    exact .bracket named inner
  | .tuple items _ =>
    rw [bind]
    refine Tracks.map (bindEach_tracks items) fun xs _ ds ⟨used, each⟩ => ?_
    subst used
    exact ⟨funext fun depth => (Encoding.uses_tuple items.length xs depth).symm, .tuple each⟩
  | .comma items _ =>
    rw [bind]
    refine Tracks.map (bindEach_tracks items) fun xs _ ds ⟨used, each⟩ => ?_
    subst used
    exact ⟨funext fun depth => (Encoding.uses_tuple items.length xs depth).symm, .comma each⟩
  | .list items _ =>
    rw [bind]
    refine Tracks.map (bindEach_tracks items) fun xs _ ds ⟨used, each⟩ => ?_
    subst used
    exact ⟨funext fun depth => (Encoding.uses_list xs depth).symm, .list each⟩
  | .lambda _ pattern body =>
    rw [bind]
    refine (bindFunction_builds _ (bind_builds body)).mono ?_
    rintro _ ds ⟨patterns, x, parts, rfl, inner⟩
    exact .lambda parts inner
  | .sectionOf body _ =>
    rw [bind]
    refine (withLocals_tracks [_] (bind_builds body)).map fun x used ds => ?_
    rintro ⟨_, ⟨rfl, inner⟩, rfl⟩
    exact ⟨funext fun depth => by rw [Term.uses, List.length_singleton, Nat.add_comm], .sectionOf inner⟩
  | .sequence items span =>
    rw [bind]
    exact (bindBlock_builds [] span items).mono fun x ds block => .sequence block
  | .data .. | .asPattern .. | .define .. | .declaration _ =>
    rw [bind]
    exact refuse_tracks _ _

theorem bindEach_tracks (items : List Tree) : (bindEach items).Tracks fun xs used ds =>
    used = (fun depth => xs.any (·.uses depth)) ∧ BecomeEach items xs ds := by
  match items with
  | [] =>
    rw [bindEach]
    exact .pure ⟨rfl, .nil⟩
  | t :: rest =>
    rw [bindEach]
    refine (bind_builds t).bind fun x ds first => ?_
    refine Tracks.map (bindEach_tracks rest) fun xs _ es ⟨used, others⟩ => ?_
    subst used
    exact ⟨rfl, .cons first others⟩

theorem bindBlock_builds (defined : List (String × Span)) (span : Span) (items : List Tree) :
    (bindBlock defined span items).Builds (BlockBecomes items) := by
  match items with
  | [] =>
    rw [bindBlock]
    exact refuse_tracks _ _
  | t :: rest =>
    have others (defined : List (String × Span)) : (bindBlock defined span rest).Builds (BlockBecomes rest) :=
      bindBlock_builds defined span rest
    cases t with
    | declaration d =>
      rw [bindBlock]
      exact (others defined).mono fun x ds behind => .declaration behind
    | define tag lhs body =>
      rw [bindBlock]
      split
      · exact refuse_tracks _ _
      split
      · exact refuse_tracks _ _
      split
      · next name parameters defines =>
        refine (distinctNames_still _ _).bind fun seen _ => ?_
        refine (bindDefinition_builds _ _ _ (bind_builds body)).bind fun value ds function => ?_
        obtain ⟨patterns, inner, parts, shape, bound⟩ := function
        refine (bindNamed_tracks _ value (others seen)).mono ?_
        rintro _ _ _ ⟨x, es, behind, rfl, rfl, rfl⟩
        exact ⟨funext fun depth => Bool.or_comm _ _, .named defines parts shape bound behind⟩
      · next unnamed =>
        refine (destructuring_still lhs).bind fun pattern parts => ?_
        refine (distinctNames_still _ _).bind fun seen _ => ?_
        refine (bind_builds body).bind fun value ds bound => ?_
        refine (bindDestructured_tracks pattern value (others seen)).mono ?_
        rintro _ _ es ⟨x, behind, rfl, rfl⟩
        exact ⟨funext fun depth => Bool.or_comm _ _, .destructured unnamed parts bound behind⟩
    | _ =>
      rw [bindBlock]
      · split
        · next last => exact (bind_builds _).mono fun x ds inner => .last rfl last inner
        · refine (bind_builds _).bind fun first ds inner => ?_
          exact (others defined).map fun x es behind => ⟨rfl, .action rfl inner behind⟩
      all_goals
        intros
        contradiction

end

end Tree

end MixfixLambda
