import MixfixLambda.Proofs.Bind.Module
import MixfixLambda.Proofs.Parse.Sections
import MixfixLambda.Proofs.Parse.Unspaced

/-!
# Sections bind what they leave out

The operand that a section leaves out has a hidden name, which the section binds. Since the operands of a parsed tree
are left out directly in its sections only, and no other name is spelled like the hidden one, this name is in scope
wherever it is looked up.
-/
namespace MixfixLambda

/-- The hidden name is not the one that is missing. -/
def BindError.Elsewhere (e : BindError) : Prop :=
  e.cause ≠ .undefinedSymbol sectionName

namespace BindM

variable {α β : Type} {scope scope' : List Tag → Prop}

/-- Work that leaves the variables in scope and, where these satisfy the condition, never misses the hidden name. -/
structure Finds (scope : List Tag → Prop) (work : BindM α) : Prop where
  error : ∀ b e b', scope (b.locals.map Local.tag) → work b = (.error e, b') → e.Elsewhere
  keeps : ∀ b a b', work b = (.ok a, b') → b'.locals.map Local.tag = b.locals.map Local.tag

/-- The hidden name is in scope. -/
def Inside (tags : List Tag) : Prop :=
  ∃ tag ∈ tags, tag.text = sectionName

theorem Finds.mono {work : BindM α} (finds : Finds scope work) (more : ∀ tags, scope' tags → scope tags) :
    Finds scope' work :=
  ⟨fun b e b' inside => finds.error b e b' (more _ inside), finds.keeps⟩

theorem Finds.pure (a : α) : Finds scope (Pure.pure a : BindM α) := by
  refine ⟨?_, ?_⟩
  · rintro b e b' - ⟨⟩
  · rintro b _ b' ⟨⟩
    rfl

theorem refuse_finds {cause : BindCause} (other : cause ≠ .undefinedSymbol sectionName) (span : Span) :
    Finds scope (refuse cause span : BindM α) := by
  refine ⟨?_, ?_⟩
  · rintro b e b' - ⟨⟩
    exact other
  · rintro b a b' ⟨⟩

theorem Finds.bind {work : BindM α} {next : α → BindM β} (first : Finds scope work)
    (second : ∀ a, Finds scope (next a)) : Finds scope (work >>= next) := by
  refine ⟨fun b e b' inside failed => ?_, fun b result b' success => ?_⟩
  · rw [bind_apply] at failed
    rcases outcome : work b with ⟨_ | a, middle⟩
    · rw [outcome] at failed
      cases failed
      exact first.error b e _ inside outcome
    · rw [outcome] at failed
      exact (second a).error middle e b' (first.keeps b a middle outcome ▸ inside) failed
  · obtain ⟨a, middle, outcome, success⟩ := bind_success success
    exact ((second a).keeps middle result b' success).trans (first.keeps b a middle outcome)

theorem warn_finds (kind : WarningKind) (name : String) (span : Span) : Finds scope (warn kind name span) := by
  refine ⟨?_, ?_⟩
  · rintro b e b' - ⟨⟩
  · rintro b a b' ⟨⟩
    rfl

theorem ofExcept_finds {outcome : Except BindError α} (other : ∀ e, outcome = .error e → e.Elsewhere) :
    Finds scope (ofExcept outcome : BindM α) := by
  cases outcome with
  | error e =>
    refine ⟨?_, ?_⟩
    · rintro b _ b' - ⟨⟩
      exact other e rfl
    · rintro b a b' ⟨⟩
  | ok a => exact .pure a

theorem innermostUsed_finds : Finds scope innermostUsed := by
  refine ⟨?_, ?_⟩
  · rintro b e b' - ⟨⟩
  · rintro b a b' ⟨⟩
    rfl

theorem withLocals_finds {work : BindM α} (tags : List Tag) (inner : Finds scope' work)
    (enters : ∀ outer, scope outer → scope' (tags.reverse ++ outer)) : Finds scope (withLocals tags work) := by
  have entered : ∀ b : Binder, ({ b with locals := tags.reverse.map (⟨·, false⟩) ++ b.locals } : Binder).locals.map
      Local.tag = tags.reverse ++ b.locals.map Local.tag := fun b => by simp [Function.comp_def]
  refine ⟨fun b e b' inside failed => ?_, fun b a b' success => ?_⟩
  · simp only [withLocals] at failed
    rcases outcome : work { b with locals := tags.reverse.map (⟨·, false⟩) ++ b.locals } with ⟨result, after⟩
    rw [outcome] at failed
    cases failed
    exact inner.error _ e after (entered b ▸ enters _ inside) outcome
  · simp only [withLocals] at success
    rcases outcome : work { b with locals := tags.reverse.map (⟨·, false⟩) ++ b.locals } with ⟨result, after⟩
    rw [outcome] at success
    cases success
    have kept := (inner.keeps _ a after outcome).trans (entered b)
    rw [List.map_drop, kept, List.drop_left' (by simp)]

theorem mapM_finds {work : α → BindM β} (items : List α) (each : ∀ a ∈ items, Finds scope (work a)) :
    Finds scope (items.mapM work) := by
  induction items with
  | nil => exact .pure _
  | cons a rest ih =>
    rw [List.mapM_cons]
    rw [List.forall_mem_cons] at each
    exact each.1.bind fun _ => (ih each.2).bind fun _ => .pure _

theorem forIn_finds {body : α → PUnit → BindM (ForInStep PUnit)} (items : List α)
    (each : ∀ a r, Finds scope (body a r)) : Finds scope (forIn items PUnit.unit body) := by
  induction items with
  | nil => exact .pure _
  | cons a rest ih =>
    rw [List.forIn_cons]
    refine (each a PUnit.unit).bind fun result => ?_
    cases result with
    | done => exact .pure _
    | yield => exact ih

end BindM

open BindM Binder

variable {scope : List Tag → Prop}

/-- A mark on a variable does not change its name. -/
theorem tags_modify (locals : List Local) (depth : Nat) :
    (locals.modify depth fun l => { l with used := true }).map Local.tag = locals.map Local.tag := by
  refine List.ext_getElem? fun index => ?_
  rw [List.getElem?_map, List.getElem?_map, List.getElem?_modify]
  cases locals[index]? with
  | none => rfl
  | some l =>
    simp only [Option.map_eq_map, Option.map_some]
    split <;> rfl

/-- A name is found, or it is another one than the hidden name. -/
theorem resolve_finds {tag : Tag} (found : tag.text = sectionName → ∀ tags, scope tags → Inside tags) :
    Finds scope (resolve tag) := by
  refine ⟨fun b e b' inside failed => ?_, fun b a b' success => ?_⟩
  · rw [resolve_apply] at failed
    split at failed
    · cases failed
      simp [BindError.Elsewhere]
    · split at failed
      · cases failed
      · next missing =>
        split at failed
        · cases failed
        · split at failed
          · cases failed
          · cases failed
            intro same
            have named : tag.text = sectionName := BindCause.undefinedSymbol.inj same
            obtain ⟨bound, member, hidden⟩ := found named _ inside
            obtain ⟨l, listed, rfl⟩ := List.mem_map.1 member
            have differs := List.findIdx?_eq_none_iff.1 missing l listed
            rw [hidden, named, beq_self_eq_true] at differs
            cases differs
  · rw [resolve_apply] at success
    split at success
    · cases success
    · split at success
      · cases success
        exact tags_modify _ _
      · split at success
        · cases success
          rfl
        · split at success
          · cases success
            rfl
          · cases success

theorem distinctNames_finds (seen : List (String × Span)) (tags : List Tag) :
    Finds scope (distinctNames seen tags) := by
  unfold distinctNames
  split
  · exact refuse_finds (by simp) _
  · exact .pure _

namespace Pattern

mutual

/-- What is no pattern is refused as such. -/
theorem ofTree_error {t : Tree} {e : BindError} (refused : ofTree t = .error e) : e.Elsewhere := by
  cases t with
  | name | unit =>
    rw [ofTree] at refused
    cases refused
  | tuple items =>
    rw [ofTree] at refused
    cases inner : ofTrees items with
    | error e' =>
      rw [inner] at refused
      cases refused
      exact ofTrees_error inner
    | ok patterns =>
      rw [inner] at refused
      cases refused
  | asPattern tag bound pattern =>
    cases bound with
    | name name =>
      rw [ofTree] at refused
      split at refused
      · cases refused
        simp [BindError.Elsewhere]
      · cases inner : ofTree pattern with
        | error e' =>
          rw [inner] at refused
          cases refused
          exact ofTree_error inner
        | ok pattern =>
          rw [inner] at refused
          cases refused
    | _ =>
      cases refused
      simp [BindError.Elsewhere]
  | _ =>
    cases refused
    simp [BindError.Elsewhere]

theorem ofTrees_error {ts : List Tree} {e : BindError} (refused : ofTrees ts = .error e) : e.Elsewhere := by
  cases ts with
  | nil =>
    rw [ofTrees] at refused
    cases refused
  | cons t rest =>
    rw [ofTrees] at refused
    cases first : ofTree t with
    | error e' =>
      rw [first] at refused
      cases refused
      exact ofTree_error first
    | ok pattern =>
      cases others : ofTrees rest with
      | error e' =>
        rw [first, others] at refused
        cases refused
        exact ofTrees_error others
      | ok patterns =>
        rw [first, others] at refused
        cases refused

end

end Pattern

/-- Work that never misses the hidden name, wherever it is done. -/
def BindM.FindsAll {α : Type} (work : BindM α) : Prop :=
  Finds (fun _ => True) work

theorem bindFunction_finds {body : BindM Term} (parameters : List Tree) (inner : body.FindsAll) :
    (bindFunction parameters body).FindsAll := by
  refine (ofExcept_finds fun _ => Pattern.ofTrees_error).bind fun _ => ?_
  refine (distinctNames_finds _ _).bind fun _ => ?_
  exact (withLocals_finds _ inner fun _ _ => trivial).bind fun _ => .pure _

theorem bindDefinition_finds {body : BindM Term} (tag : Tag) (parameters : List Tree) (recursive : Bool)
    (inner : body.FindsAll) : (bindDefinition tag parameters recursive body).FindsAll := by
  unfold bindDefinition
  split
  · exact (withLocals_finds _ (bindFunction_finds parameters inner) fun _ _ => trivial).bind fun _ => .pure _
  · exact bindFunction_finds parameters inner

theorem bindNamed_finds {rest : BindM Term} (tag : Tag) (value : Term) (inner : rest.FindsAll) :
    (bindNamed tag value rest).FindsAll := by
  have body : BindM.FindsAll (do
      let rest ← rest
      return (rest, ← innermostUsed)) :=
    Finds.bind inner fun _ => innermostUsed_finds.bind fun _ => .pure _
  refine (withLocals_finds [tag] body fun _ _ => trivial).bind fun result => ?_
  obtain ⟨t, used⟩ := result
  dsimp only
  split
  · exact (warn_finds _ _ _).bind fun _ => .pure _
  · exact .pure _

theorem destructuring_finds (lhs : Tree) : (destructuring lhs).FindsAll := by
  unfold destructuring
  split
  · exact ofExcept_finds fun _ => Pattern.ofTree_error
  · exact ofExcept_finds fun _ => Pattern.ofTree_error
  · exact refuse_finds (by simp) _

theorem bindDestructured_finds {rest : BindM Term} (pattern : Pattern) (value : Term) (inner : rest.FindsAll) :
    (bindDestructured pattern value rest).FindsAll :=
  (withLocals_finds pattern.locals inner fun _ _ => trivial).bind fun _ => .pure _

/-! ### Expressions -/

theorem unspaced_ne {text : String} (unspaced : Unspaced text) : text ≠ sectionName := by
  rintro rfl
  exact unspaced (by decide)

theorem unspaced_mixfixName {parts : List Tag} (each : ∀ tag ∈ parts, Unspaced tag.text) :
    Unspaced (mixfixName parts) := by
  rw [Unspaced, mixfixName, String.toList_intercalate, List.map_map]
  induction parts with
  | nil => simp
  | cons tag rest ih =>
    rw [List.forall_mem_cons] at each
    cases rest with
    | nil => simpa [Unspaced] using each.1
    | cons second rest =>
      have inner := ih each.2
      rw [List.map_cons, List.intercalate_cons_of_ne_nil (by simp), List.mem_append, List.mem_append, not_or, not_or]
      exact ⟨⟨each.1, by decide⟩, inner⟩

theorem unspaced_bracketName {opening closing : Tag} (first : Unspaced opening.text) (second : Unspaced closing.text) :
    Unspaced (bracketName opening closing) := by
  rw [Unspaced] at first second ⊢
  simp [bracketName, String.toList_append, first, second]

/-- A name without a space is not the hidden one. -/
theorem spelled_finds {tag : Tag} (unspaced : Unspaced tag.text) : (resolve tag).FindsAll :=
  resolve_finds fun same => absurd same (unspaced_ne unspaced)

theorem applied_finds {operand : BindM Term} {tag : Tag} (unspaced : Unspaced tag.text) (inner : operand.FindsAll) :
    BindM.FindsAll (do
      let head ← resolve tag
      return Term.app head (← operand)) :=
  (spelled_finds unspaced).bind fun _ => Finds.bind inner fun _ => .pure _

/-- The body of a section has the hidden name in scope. -/
theorem section_finds {left right : BindM Term} {operator : Tag} (unspaced : Unspaced operator.text)
    (first : left.Finds Inside) (second : right.Finds Inside) :
    BindM.FindsAll (do
      let tag := Tag.synthetic sectionName
      return Term.lam tag (← withLocals [tag] (do
        let head ← resolve operator
        let left ← left
        return Term.applyAll head [left, ← right]))) := by
  have body : BindM.Finds Inside (do
      let head ← resolve operator
      let left ← left
      return Term.applyAll head [left, ← right]) := by
    refine ((spelled_finds unspaced).mono fun _ _ => trivial).bind fun _ => ?_
    exact first.bind fun _ => second.bind fun _ => .pure _
  refine (withLocals_finds _ body fun outer _ => ?_).bind fun _ => .pure _
  exact ⟨Tag.synthetic sectionName, List.mem_cons_self .., rfl⟩

theorem placeholder_finds (span : Span) : (Tree.placeholder span).bind.Finds Inside := by
  rw [Tree.bind]
  exact resolve_finds fun _ _ inside => inside

namespace Tree

mutual

/-- Binding a whole tree never misses the hidden name. -/
theorem bind_finds (t : Tree) (whole : t.Whole) (spelled : t.Each Spelled) : t.bind.FindsAll := by
  have root : t.Spelled := spelled t .root
  cases t with
  | int | char | str | unit =>
    rw [bind]
    exact .pure _
  | name tag =>
    rw [bind]
    exact spelled_finds (root _ (List.mem_singleton_self _))
  | placeholder span => cases whole.present
  | apply function argument span =>
    have both := whole.child rfl
    rw [bind]
    refine Finds.bind (bind_finds function (both _ (by simp [children])) (spelled.child (by simp [children])))
      fun _ => ?_
    exact Finds.bind (bind_finds argument (both _ (by simp [children])) (spelled.child (by simp [children])))
      fun _ => .pure _
  | infixOp operator left right =>
    have both := whole.child rfl
    rw [bind]
    refine (spelled_finds (root _ (List.mem_singleton_self _))).bind fun _ => ?_
    refine Finds.bind (bind_finds left (both _ (by simp [children])) (spelled.child (by simp [children])))
      fun _ => ?_
    exact Finds.bind (bind_finds right (both _ (by simp [children])) (spelled.child (by simp [children])))
      fun _ => .pure _
  | prefixOp operator operand =>
    have inner := bind_finds operand (whole.child rfl _ (by simp [children])) (spelled.child (by simp [children]))
    rw [bind]
    split
    · exact refuse_finds (by simp) _
    · exact applied_finds (root _ (List.mem_singleton_self _)) inner
  | postfixOp operator operand =>
    have inner := bind_finds operand (whole.child rfl _ (by simp [children])) (spelled.child (by simp [children]))
    rw [bind]
    exact applied_finds (root _ (List.mem_singleton_self _)) inner
  | mixfix parts operands =>
    have inner := bindEach_finds operands (whole.child rfl) fun item inside => spelled.child inside
    rw [bind]
    refine (spelled_finds ?_).bind fun _ => Finds.bind inner fun _ => .pure _
    exact unspaced_mixfixName fun tag inside => root _ (List.mem_map_of_mem inside)
  | bracket opening closing content =>
    have inner := bind_finds content (whole.child rfl _ (by simp [children])) (spelled.child (by simp [children]))
    rw [bind]
    exact applied_finds (unspaced_bracketName (root _ (by simp [texts])) (root _ (by simp [texts]))) inner
  | tuple items | comma items | list items =>
    have inner := bindEach_finds items (whole.child rfl) fun item inside => spelled.child inside
    rw [bind]
    exact Finds.bind inner fun _ => .pure _
  | lambda tag pattern body =>
    rw [bind]
    exact bindFunction_finds _
      (bind_finds body (whole.child rfl _ (by simp [children])) (spelled.child (by simp [children])))
  | sequence items span =>
    rw [bind]
    exact bindBlock_finds [] span items (whole.child rfl) fun item inside => spelled.child inside
  | sectionOf body span =>
    have inner : body.Each Spelled := spelled.child (List.mem_singleton_self _)
    cases whole with
    | node _ plain => cases plain
    | lacksLeft whole =>
      have behind := bind_finds _ whole (inner.child (by simp [children]))
      rw [bind, bind]
      exact section_finds (inner _ .root _ (List.mem_singleton_self _)) (placeholder_finds _)
        (Finds.mono behind fun _ _ => trivial)
    | lacksRight whole =>
      have before := bind_finds _ whole (inner.child (by simp [children]))
      rw [bind, bind]
      exact section_finds (inner _ .root _ (List.mem_singleton_self _)) (Finds.mono before fun _ _ => trivial)
        (placeholder_finds _)
  | data | asPattern | define | declaration =>
    rw [bind]
    exact refuse_finds (by simp) _

theorem bindEach_finds (items : List Tree) (whole : ∀ item ∈ items, item.Whole)
    (spelled : ∀ item ∈ items, item.Each Spelled) : (bindEach items).FindsAll := by
  cases items with
  | nil =>
    rw [bindEach]
    exact .pure _
  | cons t rest =>
    rw [List.forall_mem_cons] at whole spelled
    rw [bindEach]
    refine Finds.bind (bind_finds t whole.1 spelled.1) fun _ => ?_
    exact Finds.bind (bindEach_finds rest whole.2 spelled.2) fun _ => .pure _

/-- A statement of a block is bound as an expression, and the rest of the block behind it. -/
theorem bindBlock_finds (defined : List (String × Span)) (span : Span) (items : List Tree)
    (whole : ∀ item ∈ items, item.Whole) (spelled : ∀ item ∈ items, item.Each Spelled) :
    (bindBlock defined span items).FindsAll := by
  cases items with
  | nil =>
    rw [bindBlock]
    exact refuse_finds (by simp) _
  | cons t rest =>
    rw [List.forall_mem_cons] at whole spelled
    have others (defined : List (String × Span)) : (bindBlock defined span rest).FindsAll :=
      bindBlock_finds defined span rest whole.2 spelled.2
    have statement := bind_finds t whole.1 spelled.1
    have expression (plain : bindBlock defined span (t :: rest) =
        if rest.all isDeclaration then bind t
        else do
          let action ← bind t
          return Term.app action (← bindBlock defined span rest)) : (bindBlock defined span (t :: rest)).FindsAll := by
      rw [plain]
      split
      · exact statement
      · exact Finds.bind statement fun _ => Finds.bind (others defined) fun _ => .pure _
    cases t with
    | declaration d =>
      rw [bindBlock]
      exact others defined
    | define tag lhs body =>
      have inner := bind_finds body (whole.1.child rfl _ (by simp [children])) (spelled.1.child (by simp [children]))
      rw [bindBlock]
      split
      · exact refuse_finds (by simp) _
      split
      · exact refuse_finds (by simp) _
      split
      · refine (distinctNames_finds _ _).bind fun seen => ?_
        refine Finds.bind (bindDefinition_finds _ _ _ inner) fun value => ?_
        exact bindNamed_finds _ value (others seen)
      · refine Finds.bind (destructuring_finds lhs) fun pattern => ?_
        refine (distinctNames_finds _ _).bind fun seen => ?_
        refine Finds.bind inner fun value => ?_
        exact bindDestructured_finds pattern value (others seen)
    | _ =>
      refine expression ?_
      rw [bindBlock]
      all_goals
        intros
        contradiction

end

end Tree

namespace Binder

theorem checkGlobalName_finds (tag : Tag) : (checkGlobalName tag).FindsAll := by
  have keeps : (get : BindM Binder).FindsAll := by
    refine ⟨?_, ?_⟩
    · rintro b e b' - ⟨⟩
    · rintro b a b' ⟨⟩
      rfl
  unfold checkGlobalName
  split
  · exact refuse_finds (by simp) _
  · refine Finds.bind keeps fun b => ?_
    split
    · exact .pure _
    · split
      · exact warn_finds _ _ _
      · exact refuse_finds (by simp) _

theorem addGlobal_finds (tag : Tag) (term : Term) : (addGlobal tag term).FindsAll := by
  refine ⟨?_, ?_⟩
  · rintro b e b' - ⟨⟩
  · rintro b a b' ⟨⟩
    rfl

theorem addChecked_finds (tag : Tag) (term : Term) : (addChecked tag term).FindsAll :=
  (checkGlobalName_finds tag).bind fun _ => addGlobal_finds tag term

theorem defineGlobal_finds (lhs : Tree) {body : Tree} (inner : body.bind.FindsAll) :
    (defineGlobal lhs body).FindsAll := by
  unfold defineGlobal
  split
  · exact refuse_finds (by simp) _
  · split
    · exact refuse_finds (by simp) _
    · refine (checkGlobalName_finds _).bind fun _ => ?_
      exact (bindDefinition_finds _ _ _ inner).bind fun term => addGlobal_finds _ term

theorem constructorOf_finds (alternative : Tree) : (constructorOf alternative).FindsAll := by
  unfold constructorOf
  split
  · split
    · exact refuse_finds (by simp) _
    · exact .pure _
  · exact refuse_finds (by simp) _

theorem defineType_finds (lhs : Tree) (alternatives : List Tree) : (defineType lhs alternatives).FindsAll := by
  unfold defineType
  split
  · exact refuse_finds (by simp) _
  · refine (mapM_finds _ fun alternative _ => constructorOf_finds alternative).bind fun constructors => ?_
    refine (addChecked_finds _ _).bind fun _ => ?_
    refine (forIn_finds _ fun _ _ => ?_).bind fun _ => ?_
    · exact (addChecked_finds _ _).bind fun _ => .pure _
    · refine (forIn_finds _ fun _ _ => ?_).bind fun _ => .pure _
      exact (addChecked_finds _ _).bind fun _ => .pure _

theorem bindItem_finds (item : Tree) (whole : item.Whole) (spelled : item.Each Tree.Spelled) :
    (bindItem item).FindsAll := by
  have expression : BindM.FindsAll (do return some (← item.bind)) :=
    Finds.bind (item.bind_finds whole spelled) fun _ => .pure _
  cases item with
  | declaration d => exact .pure _
  | define tag lhs body =>
    have inner :=
      body.bind_finds (whole.child rfl _ (by simp [Tree.children])) (spelled.child (by simp [Tree.children]))
    unfold bindItem
    dsimp only
    split
    · exact (defineType_finds lhs _).bind fun _ => .pure _
    · exact (defineGlobal_finds lhs inner).bind fun _ => .pure _
  | _ => exact expression

/-- Binding the items of a whole source never misses the hidden name. -/
theorem bindItems_finds {program : Tree} (whole : program.Whole) (spelled : program.Each Tree.Spelled) :
    (bindItems program).FindsAll := by
  refine (mapM_finds _ fun item inside => ?_).bind fun _ => .pure _
  unfold topItems at inside
  split at inside
  · exact bindItem_finds item (whole.child rfl _ inside) (spelled.child inside)
  · rw [List.mem_singleton.1 inside]
    exact bindItem_finds _ whole spelled

end Binder

namespace Parser

variable {text : String} {origin : Origin} {t : Tree} {q : Parser}

/-- The sections of a source are infix operators that lack one operand, nothing else lacks one, and binding the
source, as an expression or as a module, finds the hidden name wherever it looks it up. -/
theorem parse_sections (parsed : parseUnder .default origin text = .ok (t, q)) :
    t.Whole ∧ (∀ b e b', t.bind b = (.error e, b') → e.cause ≠ .undefinedSymbol sectionName) ∧
      ∀ b e b', Binder.bindItems t b = (.error e, b') → e.cause ≠ .undefinedSymbol sectionName := by
  have whole := whole_of_run parsed
  have spelled := spelled_of_parse parsed
  refine ⟨whole, fun b e b' failed => ?_, fun b e b' failed => ?_⟩
  · exact (t.bind_finds whole spelled).error b e b' trivial failed
  · exact (Binder.bindItems_finds whole spelled).error b e b' trivial failed

/-- A section on each side of an operator that the source declares. -/
theorem parse_sections_declared : ∃ t q,
    parseUnder .default .module "infixl 60 plus\n(1 plus) (plus 2)" = .ok (t, q) ∧ t.Whole ∧
      (∀ b e b', t.bind b = (.error e, b') → e.cause ≠ .undefinedSymbol sectionName) ∧
      ∀ b e b', Binder.bindItems t b = (.error e, b') → e.cause ≠ .undefinedSymbol sectionName := by
  have accepted :
      (parseUnder .default .module "infixl 60 plus\n(1 plus) (plus 2)").toOption.isSome = true := by
    decide +kernel
  obtain ⟨result, parsed⟩ := exists_ok accepted
  exact ⟨result.1, result.2, parsed, parse_sections parsed⟩

end Parser

end MixfixLambda
