import MixfixLambda.Proofs.Bind.Module
import MixfixLambda.Proofs.Parse.Declaration
import MixfixLambda.Proofs.Term.Place
import MixfixLambda.Proofs.Tree.Commas

/-!
# Places of bound modules

The binder takes the tag of every variable, operation and reference from a name, an operator, a chain or a
bracket of the tree, or makes it up, and a made-up tag has no place. So the places of a bound module are those
by which its trees are called, wherever the prelude has put its own names.
-/
namespace MixfixLambda

variable {places : Span → Prop}

namespace Encoding

@[simp]
theorem v_within (depth : Nat) (text : String) : (v depth text).Within places :=
  Tag.synthetic_within text

@[simp]
theorem fn_within (names : List String) (body : Term) : (fn names body).Within places ↔ body.Within places :=
  Term.lams_within _ _

theorem vars_within (names : List String) (above : Nat) : ∀ t ∈ vars names above, t.Within places := by
  intro t member
  obtain ⟨i, bound, rfl⟩ := List.mem_iff_getElem.1 member
  simp [vars]

theorem identity_within : identity.Within places := by
  simp [identity]

theorem fix_within : fix.Within places := by
  simp [fix]

theorem list_within (items : List Term) (inside : ∀ t ∈ items, t.Within places) : (list items).Within places := by
  induction items with
  | nil => simp [list, nil]
  | cons head rest ih =>
    obtain ⟨first, others⟩ := List.forall_mem_cons.mp inside
    have tail := ih others
    have whole : list (head :: rest) = .applyAll cons [head, list rest] := rfl
    rw [whole, Term.applyAll_within]
    simp [cons, first, tail]

theorem string_within (bytes : List UInt8) : (string bytes).Within places := by
  refine list_within _ (fun t member => ?_)
  obtain ⟨byte, _, rfl⟩ := List.mem_map.mp member
  exact Term.int_within _

theorem tuple_within (arity : Nat) : (tuple arity).Within places := by
  simpa [tuple] using vars_within _ _

theorem projection_within (arity index : Nat) : (projection arity index).Within places := by
  simp [projection]

theorem constructor_within (fields alternatives index : Nat) :
    (constructor fields alternatives index).Within places := by
  simpa [constructor] using vars_within _ _

theorem dispatcher_within (alternatives : Nat) : (dispatcher alternatives).Within places := by
  simpa [dispatcher] using vars_within _ _

theorem caseDispatcher_within (arities : List Nat) (index : Nat) : (caseDispatcher arities index).Within places := by
  simp only [caseDispatcher, fn_within, Term.applyAll_within, v_within, true_and]
  intro handler member
  obtain ⟨i, bound, rfl⟩ := List.mem_iff_getElem.1 member
  rw [List.getElem_zipWith]
  split <;> simp

end Encoding

namespace Pattern

mutual

/-- The names that as-patterns give to their arguments. -/
def Within (places : Span → Prop) : Pattern → Prop
  | .name _ | .unit => True
  | .tuple items => WithinAll places items
  | .asPattern tag pattern => tag.Within places ∧ pattern.Within places

def WithinAll (places : Span → Prop) : List Pattern → Prop
  | [] => True
  | p :: rest => p.Within places ∧ WithinAll places rest

end

mutual

theorem abstract_within {body : Term} (inside : body.Within places) (pattern : Pattern)
    (named : pattern.Within places) : (abstract body pattern).Within places := by
  match pattern with
  | .name tag => exact inside
  | .unit => exact inside
  | .tuple items =>
    simp only [abstract, Term.lam_within, Term.applyAll_within]
    refine ⟨abstractAll_within inside items named, fun part member => ?_⟩
    obtain ⟨index, -, rfl⟩ := List.mem_map.1 member
    exact ⟨Encoding.projection_within _ _, Tag.synthetic_within _⟩
  | .asPattern tag pattern => exact ⟨abstract_within inside pattern named.2, named.1⟩

theorem abstractAll_within {body : Term} (inside : body.Within places) (patterns : List Pattern)
    (named : WithinAll places patterns) : (abstractAll body patterns).Within places := by
  match patterns with
  | [] => exact inside
  | pattern :: rest => exact abstract_within (abstractAll_within inside rest named.2) pattern named.1

end

end Pattern

namespace Tree

/-- The tag that the root of a tree is resolved by. -/
def calledBy : Tree → Option Tag
  | .name tag | .infixOp tag _ _ | .prefixOp tag _ | .postfixOp tag _ => some tag
  | .mixfix parts _ => some (mixfixTag parts)
  | .bracket opening closing _ => some (bracketTag opening closing)
  | _ => none

/-- The place that the root of a tree is called at has the property. -/
def Within (places : Span → Prop) (t : Tree) : Prop :=
  ∀ tag ∈ t.calledBy, tag.Within places

variable {t : Tree}

/-- The head and the arguments of a juxtaposition are parts of it. -/
theorem each_spine {P : Tree → Prop} (each : t.Each P) : t.spine.1.Each P ∧ ∀ a ∈ t.spine.2, a.Each P := by
  have general : ∀ (t : Tree) (arguments : List Tree), t.Each P → (∀ a ∈ arguments, a.Each P) →
      (spine.go t arguments).1.Each P ∧ ∀ a ∈ (spine.go t arguments).2, a.Each P := by
    intro t arguments each others
    fun_induction spine.go t arguments with
    | case1 arguments function argument span ih =>
      refine ih (each.child (by simp [children])) (List.forall_mem_cons.2 ⟨each.child (by simp [children]), others⟩)
    | case2 => exact ⟨each, others⟩
  exact general t [] each (by simp)

theorem each_parameters {P : Tree → Prop} (each : t.Each P) : ∀ a ∈ t.parameters, a.Each P := by
  obtain ⟨head, arguments⟩ := each_spine each
  exact List.forall_mem_cons.2 ⟨head, arguments⟩

/-- A left-hand side defines a name that a part of it is called by. Its parameters are parts of it. -/
theorem part_definitionHead {tag : Tag} {parameters : List Tree} (defines : t.definitionHead? = some (tag, parameters)) :
    (∃ x, Part x t ∧ tag ∈ x.calledBy) ∧ ∀ p ∈ parameters, Part p t := by
  fun_induction definitionHead? t generalizing tag parameters with
  | case1 name =>
    cases defines
    exact ⟨⟨_, .root, rfl⟩, by simp⟩
  | case2 function argument span ih =>
    obtain ⟨⟨head, before⟩, found, same⟩ := Option.map_eq_some_iff.1 defines
    cases same
    obtain ⟨⟨x, part, called⟩, parts⟩ := ih found
    refine ⟨⟨x, .under (by simp [children]) part, called⟩, fun p member => ?_⟩
    rcases List.mem_append.1 member with member | member
    · exact .under (by simp [children]) (parts p member)
    · rw [List.mem_singleton.1 member]
      exact .under (by simp [children]) .root
  | case3 | case5 | case6 | case7 | case8 =>
    cases defines
    exact ⟨⟨_, .root, rfl⟩, fun p member => .under member .root⟩
  | _ => cases defines

theorem within_definitionHead {tag : Tag} {parameters : List Tree} (each : t.Each (Within places))
    (defines : t.definitionHead? = some (tag, parameters)) :
    tag.Within places ∧ ∀ p ∈ parameters, p.Each (Within places) := by
  obtain ⟨⟨x, part, called⟩, parts⟩ := part_definitionHead defines
  exact ⟨each x part tag called, fun p member => each.part (parts p member)⟩

end Tree

namespace Pattern

open Tree

mutual

/-- The names in a pattern are names of its tree. -/
theorem ofTree_within (t : Tree) {pattern : Pattern} (each : t.Each (Tree.Within places))
    (made : ofTree t = .ok pattern) : pattern.Within places := by
  match t with
  | .name tag =>
    cases made
    trivial
  | .unit span =>
    cases made
    trivial
  | .tuple items span =>
    obtain ⟨patterns, inner, made⟩ := bind_ok made
    cases made
    exact ofTrees_within items (fun item member => each.child member) inner
  | .asPattern operator bound pattern =>
    cases bound with
    | name tag =>
      rw [ofTree] at made
      split at made
      · cases made
      · obtain ⟨inner, read, made⟩ := bind_ok made
        cases made
        have inside : Tree.name tag ∈ (Tree.asPattern operator (.name tag) pattern).children := by simp [children]
        have named := each.child inside
        exact ⟨named _ .root tag rfl, ofTree_within pattern (each.child (by simp [children])) read⟩
    | _ => cases made
  | .int .. | .str .. | .char .. | .placeholder _ | .apply .. | .infixOp .. | .prefixOp .. | .postfixOp .. | .mixfix ..
  | .bracket .. | .define .. | .lambda .. | .sequence .. | .comma .. | .list .. | .data .. | .sectionOf ..
  | .declaration _ => cases made

theorem ofTrees_within (ts : List Tree) {patterns : List Pattern} (each : ∀ t ∈ ts, t.Each (Tree.Within places))
    (made : ofTrees ts = .ok patterns) : WithinAll places patterns := by
  match ts with
  | [] =>
    cases made
    trivial
  | t :: rest =>
    rw [List.forall_mem_cons] at each
    obtain ⟨pattern, first, made⟩ := bind_ok made
    obtain ⟨patterns, others, made⟩ := bind_ok made
    cases made
    exact ⟨ofTree_within t each.1 first, ofTrees_within rest each.2 others⟩

end

end Pattern

/-- The name of a global and the places of its term. -/
def Global.Within (places : Span → Prop) (g : Global) : Prop :=
  g.tag.Within places ∧ g.term.Within places

/-- The places of all globals. -/
def Binder.Within (places : Span → Prop) (b : Binder) : Prop :=
  ∀ g ∈ b.globals, g.Within places

namespace BindM

variable {α β : Type}

/-- Work that keeps the places of the globals, and whose result has the property if there is one. -/
def Places (places : Span → Prop) (work : BindM α) (post : α → Prop) : Prop :=
  ∀ b a b', b.Within places → work b = (.ok a, b') → b'.Within places ∧ post a

/-- Work that yields terms at such places. -/
abbrev PlacesTerm (places : Span → Prop) (work : BindM Term) : Prop :=
  work.Places places fun t => t.Within places

theorem Places.pure {post : α → Prop} {a : α} (holds : post a) : (Pure.pure a : BindM α).Places places post := by
  rintro b _ b' within ⟨⟩
  exact ⟨within, holds⟩

theorem Places.bind {work : BindM α} {next : α → BindM β} {post : α → Prop} {after : β → Prop}
    (first : work.Places places post) (second : ∀ a, post a → (next a).Places places after) :
    (work >>= next).Places places after := by
  intro b result b' within success
  obtain ⟨a, middle, outcome, success⟩ := bind_success success
  obtain ⟨within', holds⟩ := first b a middle within outcome
  exact second a holds middle result b' within' success

theorem refuse_places {cause : BindCause} {span : Span} {post : α → Prop} :
    (refuse cause span : BindM α).Places places post := by
  rintro b a b' - ⟨⟩

/-- Work that leaves the globals as they are. -/
theorem places_of_globals {work : BindM α} (same : ∀ b a b', work b = (.ok a, b') → b'.globals = b.globals) :
    work.Places places fun _ => True := by
  intro b a b' within success
  refine ⟨?_, trivial⟩
  unfold Binder.Within
  rw [same b a b' success]
  exact within

theorem warn_places (kind : WarningKind) (name : String) (span : Span) :
    (warn kind name span).Places places fun _ => True :=
  places_of_globals fun _ _ _ success => by cases success; rfl

theorem innermostUsed_places : innermostUsed.Places places fun _ => True :=
  places_of_globals fun _ _ _ success => by cases success; rfl

theorem ofExcept_places {outcome : Except BindError α} {post : α → Prop} (holds : ∀ a, outcome = .ok a → post a) :
    (ofExcept outcome : BindM α).Places places post := by
  cases outcome with
  | error e => exact @refuse_places places α e.cause e.span post
  | ok a => exact .pure (holds a rfl)

theorem withLocals_places {work : BindM α} {post : α → Prop} (tags : List Tag) (inner : work.Places places post) :
    (withLocals tags work).Places places post := by
  intro b a b' within success
  simp only [withLocals] at success
  rcases outcome : work { b with locals := tags.reverse.map (⟨·, false⟩) ++ b.locals } with ⟨result, after⟩
  rw [outcome] at success
  cases success
  exact inner { b with locals := tags.reverse.map (⟨·, false⟩) ++ b.locals } a after within outcome

theorem mapM_places {work : α → BindM β} {post : β → Prop} (items : List α)
    (each : ∀ a ∈ items, (work a).Places places post) :
    (items.mapM work).Places places fun results => ∀ b ∈ results, post b := by
  induction items with
  | nil => exact .pure (by simp)
  | cons a rest ih =>
    rw [List.mapM_cons]
    rw [List.forall_mem_cons] at each
    refine each.1.bind fun first holds => (ih each.2).bind fun others hold => .pure ?_
    exact List.forall_mem_cons.2 ⟨holds, hold⟩

theorem forIn_places {body : α → PUnit → BindM (ForInStep PUnit)} (items : List α)
    (each : ∀ a ∈ items, ∀ r, (body a r).Places places fun _ => True) :
    (forIn items PUnit.unit body).Places places fun _ => True := by
  induction items with
  | nil => exact .pure trivial
  | cons a rest ih =>
    rw [List.forIn_cons]
    rw [List.forall_mem_cons] at each
    refine (each.1 PUnit.unit).bind fun result _ => ?_
    cases result with
    | done => exact .pure trivial
    | yield => exact ih each.2

end BindM

open BindM Binder

/-- What a name stands for has the tag of the name. -/
theorem resolve_places {tag : Tag} (named : tag.Within places) : (resolve tag).PlacesTerm places := by
  intro b t b' within success
  rw [resolve_apply] at success
  split at success
  · cases success
  · split at success
    · cases success
      exact ⟨within, named⟩
    · split at success
      · cases success
        exact ⟨within, named⟩
      · split at success
        · cases success
          exact ⟨within, named⟩
        · cases success

theorem distinctNames_places (seen : List (String × Span)) (tags : List Tag) :
    (distinctNames seen tags).Places places fun _ => True := by
  unfold distinctNames
  split
  · exact refuse_places
  · exact .pure trivial

theorem bindFunction_places {parameters : List Tree} {body : BindM Term}
    (each : ∀ p ∈ parameters, p.Each (Tree.Within places)) (inner : body.PlacesTerm places) :
    (bindFunction parameters body).PlacesTerm places := by
  have read (patterns) (made : Pattern.ofTrees parameters = .ok patterns) : Pattern.WithinAll places patterns :=
    Pattern.ofTrees_within parameters each made
  refine (ofExcept_places read).bind fun patterns named => ?_
  refine (distinctNames_places _ _).bind fun _ _ => ?_
  refine (withLocals_places _ inner).bind fun t inside => ?_
  exact .pure (Pattern.abstractAll_within inside patterns named)

theorem bindDefinition_places {parameters : List Tree} {body : BindM Term} (tag : Tag) (recursive : Bool)
    (each : ∀ p ∈ parameters, p.Each (Tree.Within places)) (inner : body.PlacesTerm places) :
    (bindDefinition tag parameters recursive body).PlacesTerm places := by
  have function := bindFunction_places each inner
  unfold bindDefinition
  split
  · refine (withLocals_places [tag] function).bind fun t inside => ?_
    exact .pure ⟨Encoding.fix_within, inside⟩
  · exact function

theorem bindNamed_places {value : Term} {rest : BindM Term} (tag : Tag) (outside : value.Within places)
    (inner : rest.PlacesTerm places) : (bindNamed tag value rest).PlacesTerm places := by
  have body : BindM.Places places (do
      let rest ← rest
      return (rest, ← innermostUsed)) fun result => result.1.Within places := by
    refine Places.bind inner fun t inside => ?_
    exact innermostUsed_places.bind fun used _ => .pure inside
  refine (withLocals_places [tag] body).bind fun result inside => ?_
  obtain ⟨t, used⟩ := result
  have wrapped : BindM.PlacesTerm places (pure (Term.app (.lam tag t) value)) := .pure ⟨inside, outside⟩
  dsimp only
  split
  · exact (warn_places _ _ _).bind fun _ _ => wrapped
  · exact wrapped

theorem destructuring_places {lhs : Tree} (each : lhs.Each (Tree.Within places)) :
    (destructuring lhs).Places places fun pattern => pattern.Within places := by
  unfold destructuring
  split
  · exact ofExcept_places fun pattern made => Pattern.ofTree_within _ each made
  · exact ofExcept_places fun pattern made => Pattern.ofTree_within _ each made
  · exact refuse_places

theorem bindDestructured_places {pattern : Pattern} {value : Term} {rest : BindM Term}
    (named : pattern.Within places) (outside : value.Within places) (inner : rest.PlacesTerm places) :
    (bindDestructured pattern value rest).PlacesTerm places := by
  refine (withLocals_places pattern.locals inner).bind fun t inside => ?_
  exact .pure ⟨Pattern.abstract_within inside pattern named, outside⟩

/-- An operation in front of its operand. -/
theorem applied_places {tag : Tag} {operand : BindM Term} (named : tag.Within places)
    (inner : operand.PlacesTerm places) :
    BindM.PlacesTerm places (do
      let head ← resolve tag
      return .app head (← operand)) := by
  refine (resolve_places named).bind fun head function => ?_
  exact Places.bind inner fun argument inside => .pure ⟨function, inside⟩

namespace Tree

mutual

/-- The term of an expression has the places of the expression. -/
theorem bind_places (t : Tree) (each : t.Each (Tree.Within places)) : t.bind.PlacesTerm places := by
  have root : ∀ tag ∈ t.calledBy, tag.Within places := each t .root
  have part : ∀ child ∈ t.children, child.Each (Tree.Within places) := fun child inside => each.child inside
  match t with
  | .int value _ =>
    rw [bind]
    exact .pure trivial
  | .char value _ =>
    rw [bind]
    exact .pure trivial
  | .str bytes _ =>
    rw [bind]
    exact .pure (Encoding.string_within bytes)
  | .name tag =>
    rw [bind]
    exact resolve_places (root tag rfl)
  | .placeholder span =>
    rw [bind]
    exact resolve_places (Tag.within_of_origin Origin.noConfusion)
  | .apply function argument _ =>
    rw [bind]
    refine (bind_places function (part _ (by simp [children]))).bind fun head inside => ?_
    exact (bind_places argument (part _ (by simp [children]))).bind fun operand right => .pure ⟨inside, right⟩
  | .infixOp operator left right =>
    rw [bind]
    refine (resolve_places (root operator rfl)).bind fun head function => ?_
    refine (bind_places left (part _ (by simp [children]))).bind fun first before => ?_
    exact (bind_places right (part _ (by simp [children]))).bind fun second behind => .pure ⟨⟨function, before⟩, behind⟩
  | .prefixOp operator operand =>
    rw [bind]
    split
    · exact refuse_places
    · exact applied_places (root operator rfl) (bind_places operand (part _ (by simp [children])))
  | .postfixOp operator operand =>
    rw [bind]
    exact applied_places (root operator rfl) (bind_places operand (part _ (by simp [children])))
  | .mixfix parts operands =>
    rw [bind]
    refine (resolve_places (root _ rfl)).bind fun head function => ?_
    refine (bindEach_places operands part).bind fun terms inside => .pure ?_
    exact (Term.applyAll_within head terms).2 ⟨function, inside⟩
  | .bracket opening closing content =>
    rw [bind]
    exact applied_places (root _ rfl) (bind_places content (part _ (by simp [children])))
  | .tuple items _ | .comma items _ =>
    rw [bind]
    refine (bindEach_places items part).bind fun terms inside => .pure ?_
    exact (Term.applyAll_within _ terms).2 ⟨Encoding.tuple_within _, inside⟩
  | .list items _ =>
    rw [bind]
    exact (bindEach_places items part).bind fun terms inside => .pure (Encoding.list_within terms inside)
  | .unit _ =>
    rw [bind]
    exact .pure Encoding.identity_within
  | .lambda _ pattern body =>
    rw [bind]
    exact bindFunction_places (each_parameters (part _ (by simp [children])))
      (bind_places body (part _ (by simp [children])))
  | .sectionOf body _ =>
    rw [bind]
    refine (withLocals_places [_] (bind_places body (part _ (by simp [children])))).bind fun t inside => ?_
    exact .pure inside
  | .sequence items span =>
    rw [bind]
    exact bindBlock_places [] span items part
  | .data .. | .asPattern .. | .define .. | .declaration _ =>
    rw [bind]
    exact refuse_places

theorem bindEach_places (items : List Tree) (each : ∀ t ∈ items, t.Each (Tree.Within places)) :
    (bindEach items).Places places fun terms => ∀ t ∈ terms, t.Within places := by
  match items with
  | [] =>
    rw [bindEach]
    exact .pure (by simp)
  | t :: rest =>
    rw [List.forall_mem_cons] at each
    rw [bindEach]
    refine (bind_places t each.1).bind fun first before => ?_
    exact (bindEach_places rest each.2).bind fun others after => .pure (List.forall_mem_cons.2 ⟨before, after⟩)

/-- The statements of a block wrap each other. -/
theorem bindBlock_places (defined : List (String × Span)) (span : Span) (items : List Tree)
    (each : ∀ t ∈ items, t.Each (Tree.Within places)) : (bindBlock defined span items).PlacesTerm places := by
  match items with
  | [] =>
    rw [bindBlock]
    exact refuse_places
  | t :: rest =>
    rw [List.forall_mem_cons] at each
    have others (defined : List (String × Span)) : (bindBlock defined span rest).PlacesTerm places :=
      bindBlock_places defined span rest each.2
    cases t with
    | declaration d =>
      rw [bindBlock]
      exact others defined
    | define tag lhs body =>
      have left : lhs.Each (Tree.Within places) := each.1.child (by simp [children])
      have value := bind_places body (each.1.child (by simp [children]))
      rw [bindBlock]
      split
      · exact refuse_places
      split
      · exact refuse_places
      split
      · next head =>
        obtain ⟨_, parameters⟩ := within_definitionHead left (Option.mem_filter_iff.1 head).1
        refine (distinctNames_places _ _).bind fun seen _ => ?_
        refine (bindDefinition_places _ _ parameters value).bind fun term inside => ?_
        exact bindNamed_places _ inside (others seen)
      · refine (destructuring_places left).bind fun pattern named => ?_
        refine (distinctNames_places _ _).bind fun seen _ => ?_
        refine value.bind fun term inside => ?_
        exact bindDestructured_places named inside (others seen)
    | _ =>
      rw [bindBlock]
      · split
        · exact bind_places _ each.1
        · refine (bind_places _ each.1).bind fun action first => ?_
          exact (others defined).bind fun body inside => .pure ⟨first, inside⟩
      all_goals
        intros
        contradiction

end

end Tree

namespace Binder

theorem checkGlobalName_places (tag : Tag) : (checkGlobalName tag).Places places fun _ => True := by
  refine places_of_globals fun b a b' success => ?_
  obtain ⟨shadowed, -, rfl⟩ := checkGlobalName_success success
  rfl

theorem addGlobal_places {tag : Tag} {term : Term} (named : tag.Within places) (inside : term.Within places) :
    (addGlobal tag term).Places places fun _ => True := by
  rintro b a b' within ⟨⟩
  refine ⟨fun g member => ?_, trivial⟩
  rcases Array.mem_push.1 member with old | rfl
  · exact within g old
  · exact ⟨named, inside⟩

theorem addChecked_places {tag : Tag} {term : Term} (named : tag.Within places) (inside : term.Within places) :
    (addChecked tag term).Places places fun _ => True :=
  (checkGlobalName_places tag).bind fun _ _ => addGlobal_places named inside

theorem defineGlobal_places {lhs body : Tree} (left : lhs.Each (Tree.Within places))
    (right : body.Each (Tree.Within places)) : (defineGlobal lhs body).Places places fun _ => True := by
  unfold defineGlobal
  split
  · exact refuse_places
  · next tag parameters defines =>
    obtain ⟨named, each⟩ := Tree.within_definitionHead left defines
    split
    · exact refuse_places
    · refine (checkGlobalName_places tag).bind fun _ _ => ?_
      refine (bindDefinition_places tag _ each (body.bind_places right)).bind fun term inside => ?_
      exact addGlobal_places named inside

/-- The name of a constructor is a name in its alternative. -/
theorem constructorOf_places {alternative : Tree} (each : alternative.Each (Tree.Within places)) :
    (constructorOf alternative).Places places fun constructor => constructor.1.Within places := by
  unfold constructorOf
  split
  · next tag fields head =>
    split
    · exact refuse_places
    · have root := (Tree.each_spine each).1
      rw [head] at root
      exact .pure (root _ .root tag rfl)
  · exact refuse_places

theorem defineType_places {lhs : Tree} {alternatives : List Tree} (left : lhs.Each (Tree.Within places))
    (each : ∀ t ∈ alternatives, t.Each (Tree.Within places)) :
    (defineType lhs alternatives).Places places fun _ => True := by
  unfold defineType
  split
  · exact refuse_places
  · next tag parameters defines =>
    have named := (Tree.within_definitionHead left defines).1
    refine (mapM_places alternatives fun t member => constructorOf_places (each t member)).bind
      fun constructors listed => ?_
    have known : ∀ item ∈ constructors.zipIdx, item.1.1.Within places := fun item member =>
      listed _ (List.fst_mem_of_mem_zipIdx member)
    refine (addChecked_places named (Encoding.dispatcher_within _)).bind fun _ _ => ?_
    refine (forIn_places _ fun item member _ => ?_).bind fun _ _ => ?_
    · exact (addChecked_places (known item member) (Encoding.constructor_within ..)).bind fun _ _ => .pure trivial
    · refine (forIn_places _ fun item member _ => ?_).bind fun _ _ => .pure trivial
      have caseNamed : (caseTag item.1.1).Within places := known item member
      exact (addChecked_places caseNamed (Encoding.caseDispatcher_within ..)).bind fun _ _ => .pure trivial

theorem bindItem_places {item : Tree} (each : item.Each (Tree.Within places)) :
    (bindItem item).Places places fun result => ∀ term ∈ result, term.Within places := by
  cases item with
  | declaration d => exact .pure (by simp)
  | define tag lhs body =>
    have left : lhs.Each (Tree.Within places) := each.child (by simp [Tree.children])
    have right : body.Each (Tree.Within places) := each.child (by simp [Tree.children])
    unfold bindItem
    dsimp only
    split
    · exact (defineType_places left fun t member => right.child member).bind fun _ _ => .pure (by simp)
    · exact (defineGlobal_places left right).bind fun _ _ => .pure (by simp)
  | _ =>
    refine (Tree.bind_places _ each).bind fun term inside => .pure ?_
    exact fun _ same => Option.some.inj same ▸ inside

theorem bindItems_places {program : Tree} (each : program.Each (Tree.Within places)) :
    (bindItems program).Places places fun result => ∀ term ∈ result, term.Within places := by
  have items : ∀ t ∈ topItems program, t.Each (Tree.Within places) := by
    unfold topItems
    split
    · exact fun t member => each.child member
    · exact fun t member => List.mem_singleton.1 member ▸ each
  refine (mapM_places _ fun t member => bindItem_places (items t member)).bind fun results inside => .pure ?_
  refine chainExpressions_keeps (fun _ _ => And.intro) _ fun term member => ?_
  obtain ⟨result, listed, same⟩ := List.mem_filterMap.1 member
  exact inside result listed term same

/-- The entry is the expressions of the module, or a reference to `main` at its definition. -/
theorem finish_places {expression : Option Term} (span : Span) (inside : ∀ term ∈ expression, term.Within places) :
    (finish expression span).Places places fun entry => entry.term.Within places := by
  cases expression with
  | some term => exact .pure (inside term rfl)
  | none =>
    intro b entry b' within success
    obtain ⟨index, definition, input, -, here, read, rfl⟩ := finish_main success
    obtain ⟨within', term⟩ := resolve_places (Tag.synthetic_within _) b input b' within read
    exact ⟨within', (within definition (Array.mem_of_getElem? here)).1, term, trivial⟩

end Binder

theorem Binder.ofSource_within {parsed : Except ParseError Tree} {b : Binder}
    (bound : Binder.ofSource parsed = .ok b) (each : ∀ t, parsed = .ok t → t.Each (Tree.Within places)) :
    b.Within places := by
  obtain ⟨t, expression, parsed, items⟩ := Binder.ofSource_success bound
  exact (Binder.bindItems_places (each t parsed) Binder.empty expression b (fun g member => nomatch member) items).1

end MixfixLambda
