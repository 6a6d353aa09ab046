import MixfixLambda.Proofs.Bind.Unused

/-!
# Sections mean their lambda

Binding tells scopes apart only by where it finds the names that it looks up. A whole operand looks up no hidden name
of a section around it, so it is bound under such a name as under any other one that it does not mention, and the
section of an operator becomes the function that its programmer would have written.
-/
namespace MixfixLambda

theorem Binder.depthOf?_mark (used : Nat → Bool) (locals : List Local) (name : String) :
    depthOf? (Local.mark used locals) name = depthOf? locals name := by
  have tags (all : List Local) : depthOf? all name = (all.map Local.tag).findIdx? (·.text == name) :=
    by rw [List.findIdx?_map]; rfl
  rw [tags, tags, Local.tags_mark]

namespace BindM

open Binder

variable {α β : Type} {apart wider : String → Prop}

theorem depthOf?_inside (tags : List Tag) (b : Binder) (name : String) :
    depthOf? (inside tags b).locals name =
      (tags.reverse.findIdx? (·.text == name)).or ((depthOf? b.locals name).map (· + tags.length)) := by
  rw [depthOf?, inside, List.findIdx?_append, List.findIdx?_map, List.length_map, List.length_reverse]
  rfl

/-- A name that is not found among new variables is none of theirs. -/
theorem outer_name {tags : List Tag} {name : String} (missing : tags.reverse.findIdx? (·.text == name) = none) :
    ∀ tag ∈ tags, tag.text ≠ name := by
  intro tag member same
  have differs := List.findIdx?_eq_none_iff.1 missing tag (List.mem_reverse.2 member)
  rw [same, beq_self_eq_true] at differs
  cases differs

/-- The same tables, and the same depth of every name but some. -/
structure Akin (apart : String → Prop) (b b' : Binder) : Prop where
  globals : b'.globals = b.globals
  names : b'.names = b.names
  depth : ∀ name, ¬apart name → depthOf? b'.locals name = depthOf? b.locals name

variable {b b' : Binder}

theorem Akin.refl (b : Binder) : Akin apart b b :=
  ⟨rfl, rfl, fun _ _ => rfl⟩

theorem Akin.mono (akin : Akin apart b b') (more : ∀ name, apart name → wider name) : Akin wider b b' :=
  ⟨akin.globals, akin.names, fun name together => akin.depth name fun other => together (more name other)⟩

theorem Akin.after (akin : Akin apart b b') (e : Effect α) : Akin apart (b.after e) (b'.after e) where
  globals := rfl
  names := rfl
  depth name together := by
    rw [Binder.after, Binder.after, depthOf?_mark, depthOf?_mark, akin.depth name together]

/-- Inside, the names of the new variables are found in the same place again. -/
theorem Akin.inside (akin : Akin apart b b') (tags : List Tag) :
    Akin (fun name => apart name ∧ ∀ tag ∈ tags, tag.text ≠ name) (inside tags b) (inside tags b') where
  globals := akin.globals
  names := akin.names
  depth name together := by
    rw [depthOf?_inside, depthOf?_inside]
    cases missing : tags.reverse.findIdx? (·.text == name) with
    | some depth => rfl
    | none => rw [akin.depth name fun other => together ⟨other, outer_name missing⟩]

/-- Work with the same effect in all binders that are told apart by some names only, which it does not look up. -/
def Ignores (apart : String → Prop) (work : BindM α) : Prop :=
  ∀ b, ∃ e : Effect α, (∀ depth, e.used depth = true → ∃ name, ¬apart name ∧ depthOf? b.locals name = some depth) ∧
    ∀ b', Akin apart b b' → work b' = (e.result, b'.after e)

theorem Ignores.mono {work : BindM α} (ignores : work.Ignores wider) (less : ∀ name, apart name → wider name) :
    work.Ignores apart := by
  intro b
  obtain ⟨e, used, effect⟩ := ignores b
  refine ⟨e, fun depth marked => ?_, fun b' akin => effect b' (akin.mono less)⟩
  obtain ⟨name, together, found⟩ := used depth marked
  exact ⟨name, fun other => together (less name other), found⟩

/-- Work that changes nothing. -/
theorem ignores_at {work : BindM α} {b : Binder} (result : Except BindError α)
    (same : ∀ b', Akin apart b b' → work b' = (result, b')) : ∃ e : Effect α,
      (∀ depth, e.used depth = true → ∃ name, ¬apart name ∧ depthOf? b.locals name = some depth) ∧
        ∀ b', Akin apart b b' → work b' = (e.result, b'.after e) := by
  refine ⟨.still b.view result, fun depth marked => Bool.noConfusion marked, fun b' akin => ?_⟩
  have tables : Effect.still b.view result = .still b'.view result := by
    rw [Effect.still, Effect.still, view, view, akin.globals, akin.names]
  rw [same b' akin, tables, after_still]
  rfl

theorem Ignores.pure (a : α) : (Pure.pure a : BindM α).Ignores apart :=
  fun _ => ignores_at (.ok a) fun _ _ => rfl

theorem refuse_ignores (cause : BindCause) (span : Span) : (refuse cause span : BindM α).Ignores apart :=
  fun _ => ignores_at (.error ⟨cause, span⟩) fun _ _ => rfl

theorem ofExcept_ignores (outcome : Except BindError α) : (ofExcept outcome : BindM α).Ignores apart := by
  cases outcome with
  | error e => exact refuse_ignores e.cause e.span
  | ok a => exact .pure a

theorem warn_ignores (kind : WarningKind) (name : String) (span : Span) : (warn kind name span).Ignores apart := by
  intro b
  refine ⟨⟨.ok (), b.globals, b.names, fun _ => false, [⟨kind, name, span⟩]⟩,
    fun depth marked => Bool.noConfusion marked, fun b' akin => ?_⟩
  rw [Binder.after, Local.mark_none, ← akin.globals, ← akin.names]
  rfl

/-- One after the other, as long as there is a result: marks and warnings add up. -/
theorem Ignores.bind {work : BindM α} {next : α → BindM β} (first : work.Ignores apart)
    (second : ∀ a, (next a).Ignores apart) : (work >>= next).Ignores apart := by
  intro b
  obtain ⟨e, used, effect⟩ := first b
  cases outcome : e.result with
  | error error =>
    refine ⟨e.answering (.error error), used, fun b' akin => ?_⟩
    rw [bind_apply, effect b' akin, outcome]
    rfl
  | ok a =>
    obtain ⟨e', used', effect'⟩ := second a (b.after e)
    refine ⟨⟨e'.result, e'.globals, e'.names, fun depth => e.used depth || e'.used depth,
      e'.warnings ++ e.warnings⟩, fun depth marked => ?_, fun b' akin => ?_⟩
    · rcases Bool.or_eq_true_iff.1 marked with marked | marked
      · exact used depth marked
      · obtain ⟨name, together, found⟩ := used' depth marked
        rw [Binder.after, depthOf?_mark] at found
        exact ⟨name, together, found⟩
    · rw [bind_apply, effect b' akin, outcome]
      dsimp only
      rw [effect' _ (akin.after e)]
      simp only [after, Local.mark_mark, List.append_assoc]

/-- A depth outside of some new variables is that of a name which they do not have. -/
theorem outer_depth {tags : List Tag} {depth : Nat} {name : String}
    (together : ¬(apart name ∧ ∀ tag ∈ tags, tag.text ≠ name))
    (found : depthOf? (inside tags b).locals name = some (tags.length + depth)) :
    ¬apart name ∧ depthOf? b.locals name = some depth := by
  rw [depthOf?_inside] at found
  cases here : tags.reverse.findIdx? (·.text == name) with
  | some near =>
    have within := (List.findIdx?_eq_some_iff_findIdx_eq.1 here).1
    rw [here, Option.some_or, Option.some.injEq] at found
    rw [List.length_reverse] at within
    omega
  | none =>
    rw [here, Option.none_or, Option.map_eq_some_iff] at found
    obtain ⟨outer, found, same⟩ := found
    exact ⟨fun other => together ⟨other, outer_name here⟩, found.trans (congrArg some (by omega))⟩

theorem withLocals_ignores {work : BindM α} (tags : List Tag)
    (inner : work.Ignores fun name => apart name ∧ ∀ tag ∈ tags, tag.text ≠ name) :
    (withLocals tags work).Ignores apart := by
  intro b
  obtain ⟨e, used, effect⟩ := inner (inside tags b)
  refine ⟨{ e with used := fun depth => e.used (tags.length + depth) }, fun depth marked => ?_, fun b' akin => ?_⟩
  · obtain ⟨name, together, found⟩ := used _ marked
    exact ⟨name, outer_depth together found⟩
  · have left : (Local.mark e.used (inside tags b').locals).drop tags.length =
        Local.mark (fun depth => e.used (tags.length + depth)) b'.locals := by
      rw [Local.drop_mark, inside, List.drop_left' (by simp)]
    rw [withLocals_of_ran (effect _ (akin.inside tags))]
    simp only [after, left]
    rfl

/-- Whether a new variable has been used does not depend on the names outside either. -/
theorem withUsed_ignores {work : BindM α} (tag : Tag)
    (inner : work.Ignores fun name => apart name ∧ ∀ t ∈ [tag], t.text ≠ name) :
    (withLocals [tag] (do
      let a ← work
      return (a, ← innermostUsed))).Ignores apart := by
  intro b
  obtain ⟨e, used, effect⟩ := inner (inside [tag] b)
  let result := e.result.map fun a => (a, e.used 0)
  refine ⟨{ e.answering result with used := fun depth => e.used (1 + depth) }, fun depth marked => ?_,
    fun b' akin => ?_⟩
  · obtain ⟨name, together, found⟩ := used _ marked
    exact ⟨name, outer_depth together found⟩
  · have ran := effect _ (akin.inside [tag])
    have fresh : ((inside [tag] b').after e).locals.head?.any (·.used) = e.used 0 := by
      simp [inside, after, Local.mark]
    have left : (Local.mark e.used (inside [tag] b').locals).drop 1 =
        Local.mark (fun depth => e.used (1 + depth)) b'.locals := by
      rw [Local.drop_mark, inside, List.drop_left' (by simp)]
    rw [withUsed_apply ran, fresh]
    simp only [after, left]
    rfl

end BindM

open BindM Binder

variable {apart : String → Prop}

/-- A lookup of a name that is found at the same depth. -/
theorem resolve_ignores {tag : Tag} (together : ¬apart tag.text) : (resolve tag).Ignores apart := by
  intro b
  by_cases reserved : (tag.text == "_") = true
  · refine ignores_at (.error ⟨.reservedName tag.text, tag.span⟩) fun b' _ => ?_
    rw [resolve_apply, if_pos reserved]
    rfl
  cases found : depthOf? b.locals tag.text with
  | some depth =>
    refine ⟨⟨.ok (.var depth tag), b.globals, b.names, (· == depth), []⟩, fun _ marked => ?_, fun b' akin => ?_⟩
    · exact ⟨tag.text, together, found.trans (congrArg some (eq_of_beq marked).symm)⟩
    · rw [resolve_apply, if_neg reserved, akin.depth _ together, found]
      simp only [Local.modify_eq_mark, after, ← akin.globals, ← akin.names]
      rfl
  | none =>
    have outside (b' : Binder) (akin : Akin apart b b') : depthOf? b'.locals tag.text = none :=
      (akin.depth _ together).trans found
    cases builtin : Builtin.ofName? tag.text with
    | some operation =>
      refine ignores_at (.ok (.builtin operation tag)) fun b' akin => ?_
      rw [resolve_apply, if_neg reserved, outside b' akin, builtin]
    | none =>
      have same (b' : Binder) (akin : Akin apart b b') : b'.indexOf? tag.text = b.indexOf? tag.text := by
        rw [indexOf?, indexOf?, akin.names]
      cases indexed : b.indexOf? tag.text with
      | some index =>
        refine ignores_at (.ok (.global index tag)) fun b' akin => ?_
        rw [resolve_apply, if_neg reserved, outside b' akin, builtin]
        dsimp only
        rw [same b' akin, indexed]
      | none =>
        refine ignores_at (.error ⟨.undefinedSymbol tag.text, tag.span⟩) fun b' akin => ?_
        rw [resolve_apply, if_neg reserved, outside b' akin, builtin]
        dsimp only
        rw [same b' akin, indexed]
        rfl

theorem distinctNames_ignores (seen : List (String × Span)) (tags : List Tag) :
    (distinctNames seen tags).Ignores apart := by
  unfold distinctNames
  split
  · exact refuse_ignores _ _
  · exact .pure _

/-- New variables only make more names known. -/
theorem BindM.Ignores.inside {α : Type} {work : BindM α} (ignores : work.Ignores apart) (tags : List Tag) :
    work.Ignores fun name => apart name ∧ ∀ tag ∈ tags, tag.text ≠ name :=
  ignores.mono fun _ both => both.1

theorem bindFunction_ignores {body : BindM Term} (parameters : List Tree) (inner : body.Ignores apart) :
    (bindFunction parameters body).Ignores apart := by
  refine (ofExcept_ignores _).bind fun patterns => ?_
  refine (distinctNames_ignores _ _).bind fun _ => ?_
  exact (withLocals_ignores _ (inner.inside _)).bind fun _ => .pure _

theorem bindDefinition_ignores {body : BindM Term} (tag : Tag) (parameters : List Tree) (recursive : Bool)
    (inner : body.Ignores apart) : (bindDefinition tag parameters recursive body).Ignores apart := by
  have function := bindFunction_ignores parameters inner
  unfold bindDefinition
  split
  · exact (withLocals_ignores [tag] (function.inside _)).bind fun _ => .pure _
  · exact function

theorem bindNamed_ignores {rest : BindM Term} (tag : Tag) (value : Term) (inner : rest.Ignores apart) :
    (bindNamed tag value rest).Ignores apart := by
  refine (withUsed_ignores tag (inner.inside _)).bind fun result => ?_
  obtain ⟨t, used⟩ := result
  dsimp only
  split
  · exact (warn_ignores _ _ _).bind fun _ => .pure _
  · exact .pure _

theorem destructuring_ignores (lhs : Tree) : (destructuring lhs).Ignores apart := by
  unfold destructuring
  split
  · exact ofExcept_ignores _
  · exact ofExcept_ignores _
  · exact refuse_ignores _ _

theorem bindDestructured_ignores {rest : BindM Term} (pattern : Pattern) (value : Term) (inner : rest.Ignores apart) :
    (bindDestructured pattern value rest).Ignores apart :=
  (withLocals_ignores pattern.locals (inner.inside _)).bind fun _ => .pure _

namespace Tree

def isAsPattern : Tree → Bool
  | .asPattern .. => true
  | _ => false

/-- The name that an as-pattern binds is the only part of a tree that is no mention. -/
theorem mentions_of_child {t child : Tree} (plain : t.isAsPattern = false) (inside : child ∈ t.children)
    {name : String} (mentioned : child.mentions name = true) : t.mentions name = true := by
  cases t with
  | asPattern => cases plain
  | apply first second | infixOp operator first second | define tag first second | lambda tag first second =>
    rw [children, List.mem_cons, List.mem_singleton] at inside
    rcases inside with rfl | rfl <;> simp [mentions, mentioned]
  | prefixOp operator inner | postfixOp operator inner | bracket opening closing inner | sectionOf inner =>
    obtain rfl := List.mem_singleton.1 inside
    simp [mentions, mentioned]
  | mixfix parts items | sequence items | comma items | tuple items | list items | data items =>
    have one : items.any (mentions name) = true := List.any_eq_true.2 ⟨child, inside, mentioned⟩
    simp [mentions, anyMentions_eq_any, one]
  | _ => cases inside

/-- A whole tree with names as a source spells them, which mentions none of the given ones; that sections have a
hidden name is no mention. -/
structure Avoids (apart : String → Prop) (t : Tree) : Prop where
  whole : t.Whole
  spelled : t.Each Spelled
  unmentioned : ∀ name, apart name → name ≠ sectionName → t.mentions name = false

namespace Avoids

variable {t x left right : Tree}

/-- The operands of anything but a section are whole themselves. -/
theorem child (avoids : t.Avoids apart) (closed : t.isSection = false) (plain : t.isAsPattern = false)
    (inside : x ∈ t.children) : x.Avoids apart := by
  refine ⟨avoids.whole.child closed x inside, avoids.spelled.child inside, fun name other visible => ?_⟩
  have none := avoids.unmentioned name other visible
  rw [← Bool.not_eq_true] at none ⊢
  exact fun mentioned => none (mentions_of_child plain inside mentioned)

/-- What is mentioned, without a space, is none of the names. -/
theorem resolve (avoids : t.Avoids apart) {tag : Tag} (unspaced : Unspaced tag.text)
    (mentioned : t.mentions tag.text = true) : (resolve tag).Ignores apart := by
  refine resolve_ignores fun other => ?_
  rw [avoids.unmentioned _ other (unspaced_ne unspaced)] at mentioned
  cases mentioned

/-- The operator of a section, and each operand that is there. -/
theorem sectionOf {operator : Tag} {span : Span}
    (avoids : (Tree.sectionOf (.infixOp operator left right) span).Avoids apart) :
    (Binder.resolve operator).Ignores apart ∧ ∀ x ∈ [left, right], x.Whole → x.Avoids apart := by
  have body := avoids.spelled.child (List.mem_singleton_self _)
  refine ⟨?_, fun x inside whole => ⟨whole, body.child inside, fun name other visible => ?_⟩⟩
  · exact avoids.resolve (body _ .root _ (List.mem_singleton_self _)) (by simp [mentions])
  · have none := avoids.unmentioned name other visible
    rw [← Bool.not_eq_true] at none ⊢
    exact fun mentioned => none (by rw [mentions]; exact mentions_of_child rfl inside mentioned)

/-- An operation in front of its operand. -/
theorem applied {operand : BindM Term} (avoids : t.Avoids apart) {tag : Tag} (unspaced : Unspaced tag.text)
    (mentioned : t.mentions tag.text = true) (inner : operand.Ignores apart) :
    BindM.Ignores apart (do
      let head ← Binder.resolve tag
      return Term.app head (← operand)) :=
  (avoids.resolve unspaced mentioned).bind fun _ => Ignores.bind inner fun _ => .pure _

end Avoids

/-- The body of a section finds the hidden name where the section has put it. -/
theorem placeholder_ignores (span : Span) :
    (placeholder span).bind.Ignores fun name => apart name ∧ ∀ tag ∈ [Tag.synthetic sectionName], tag.text ≠ name := by
  rw [bind]
  exact resolve_ignores fun other => other.2 _ (List.mem_singleton_self _) rfl

mutual

/-- Binding a tree does not tell apart scopes that differ in names which it does not mention. -/
theorem bind_ignores (t : Tree) (avoids : t.Avoids apart) : t.bind.Ignores apart := by
  have root : t.Spelled := avoids.spelled t .root
  cases t with
  | int | char | str | unit =>
    rw [bind]
    exact .pure _
  | name tag =>
    rw [bind]
    exact avoids.resolve (root _ (List.mem_singleton_self _)) (by simp [mentions])
  | placeholder span => cases avoids.whole.present
  | apply function argument span =>
    have first := bind_ignores function (avoids.child rfl rfl (by simp [children]))
    have second := bind_ignores argument (avoids.child rfl rfl (by simp [children]))
    rw [bind]
    exact Ignores.bind first fun _ => Ignores.bind second fun _ => .pure _
  | infixOp operator left right =>
    have first := bind_ignores left (avoids.child rfl rfl (by simp [children]))
    have second := bind_ignores right (avoids.child rfl rfl (by simp [children]))
    rw [bind]
    refine (avoids.resolve (root _ (List.mem_singleton_self _)) (by simp [mentions])).bind fun _ => ?_
    exact Ignores.bind first fun _ => Ignores.bind second fun _ => .pure _
  | prefixOp operator operand =>
    have inner := bind_ignores operand (avoids.child rfl rfl (by simp [children]))
    rw [bind]
    split
    · exact refuse_ignores _ _
    · exact avoids.applied (root _ (List.mem_singleton_self _)) (by simp [mentions]) inner
  | postfixOp operator operand =>
    have inner := bind_ignores operand (avoids.child rfl rfl (by simp [children]))
    rw [bind]
    exact avoids.applied (root _ (List.mem_singleton_self _)) (by simp [mentions]) inner
  | mixfix parts operands =>
    have inner := bindEach_ignores operands fun item inside => avoids.child rfl rfl inside
    have unspaced : Unspaced (mixfixTag parts).text :=
      unspaced_mixfixName fun tag inside => root _ (List.mem_map_of_mem inside)
    rw [bind]
    refine (avoids.resolve unspaced ?_).bind fun _ => Ignores.bind inner fun _ => .pure _
    simp [mentions, mixfixTag, joinedTag]
  | bracket opening closing content =>
    have inner := bind_ignores content (avoids.child rfl rfl (by simp [children]))
    have unspaced : Unspaced (bracketTag opening closing).text :=
      unspaced_bracketName (root _ (by simp [texts])) (root _ (by simp [texts]))
    rw [bind]
    refine avoids.applied unspaced ?_ inner
    simp [mentions, bracketTag, joinedTag]
  | tuple items | comma items | list items =>
    have inner := bindEach_ignores items fun item inside => avoids.child rfl rfl inside
    rw [bind]
    exact Ignores.bind inner fun _ => .pure _
  | lambda tag pattern body =>
    rw [bind]
    exact bindFunction_ignores _ (bind_ignores body (avoids.child rfl rfl (by simp [children])))
  | sequence items span =>
    rw [bind]
    exact bindBlock_ignores [] span items fun item inside => avoids.child rfl rfl inside
  | sectionOf body span =>
    rw [bind]
    refine Ignores.bind (withLocals_ignores [_] ?_) fun _ => .pure _
    cases avoids.whole with
    | node _ plain => cases plain
    | lacksLeft whole =>
      obtain ⟨named, operands⟩ := avoids.sectionOf
      have behind := bind_ignores _ (operands _ (by simp) whole)
      rw [bind]
      refine (named.inside _).bind fun _ => ?_
      exact Ignores.bind (placeholder_ignores _) fun _ => Ignores.bind (behind.inside _) fun _ => .pure _
    | lacksRight whole =>
      obtain ⟨named, operands⟩ := avoids.sectionOf
      have before := bind_ignores _ (operands _ (by simp) whole)
      rw [bind]
      refine (named.inside _).bind fun _ => ?_
      exact Ignores.bind (before.inside _) fun _ => Ignores.bind (placeholder_ignores _) fun _ => .pure _
  | data | asPattern | define | declaration =>
    rw [bind]
    exact refuse_ignores _ _

theorem bindEach_ignores (items : List Tree) (avoid : ∀ item ∈ items, item.Avoids apart) :
    (bindEach items).Ignores apart := by
  cases items with
  | nil =>
    rw [bindEach]
    exact .pure _
  | cons t rest =>
    rw [List.forall_mem_cons] at avoid
    rw [bindEach]
    refine Ignores.bind (bind_ignores t avoid.1) fun _ => ?_
    exact Ignores.bind (bindEach_ignores rest avoid.2) fun _ => .pure _

theorem bindBlock_ignores (defined : List (String × Span)) (span : Span) (items : List Tree)
    (avoid : ∀ item ∈ items, item.Avoids apart) : (bindBlock defined span items).Ignores apart := by
  cases items with
  | nil =>
    rw [bindBlock]
    exact refuse_ignores _ _
  | cons t rest =>
    rw [List.forall_mem_cons] at avoid
    have others (defined : List (String × Span)) : (bindBlock defined span rest).Ignores apart :=
      bindBlock_ignores defined span rest avoid.2
    have statement := bind_ignores t avoid.1
    cases t with
    | declaration d =>
      rw [bindBlock]
      exact others defined
    | define tag lhs body =>
      have inner := bind_ignores body (avoid.1.child rfl rfl (by simp [children]))
      rw [bindBlock]
      split
      · exact refuse_ignores _ _
      split
      · exact refuse_ignores _ _
      split
      · refine (distinctNames_ignores _ _).bind fun seen => ?_
        refine Ignores.bind (bindDefinition_ignores _ _ _ inner) fun value => ?_
        exact bindNamed_ignores _ value (others seen)
      · refine Ignores.bind (destructuring_ignores lhs) fun pattern => ?_
        refine (distinctNames_ignores _ _).bind fun seen => ?_
        refine Ignores.bind inner fun value => ?_
        exact bindDestructured_ignores pattern value (others seen)
    | _ =>
      rw [bindBlock]
      · split
        · exact statement
        · exact Ignores.bind statement fun _ => Ignores.bind (others defined) fun _ => .pure _
      all_goals
        intros
        contradiction

end

end Tree

/-! ### One hidden variable or another -/

namespace BindM

/-- The binder without its innermost variable. -/
def popped (b : Binder) : Binder :=
  { b with locals := b.locals.drop 1 }

/-- The binder with a mark on its innermost variable. -/
def marked (b : Binder) : Binder :=
  { b with locals := Local.mark (· == 0) b.locals }

/-- The effect on the variables outside the innermost one. -/
def outside (e : Effect Term) : Effect Term :=
  { e with used := fun depth => e.used (1 + depth) }

variable {b b' b'' : Binder} {tag : Tag}

theorem popped_after (b : Binder) (e : Effect Term) : popped (b.after e) = (popped b).after (outside e) := by
  simp only [popped, after, Local.drop_mark]
  rfl

theorem popped_marked (b : Binder) : popped (marked b) = popped b := by
  have none : (fun depth : Nat => 1 + depth == 0) = fun _ => false := by
    funext depth
    exact beq_eq_false_iff_ne.2 (by omega)
  simp only [popped, marked, Local.drop_mark, none, Local.mark_none]

theorem Akin.trans (first : Akin apart b b') (second : Akin apart b' b'') : Akin apart b b'' :=
  ⟨second.globals.trans first.globals, second.names.trans first.names,
    fun name together => (second.depth name together).trans (first.depth name together)⟩

theorem akin_marked (b : Binder) : Akin apart b (marked b) :=
  ⟨rfl, rfl, fun _ _ => depthOf?_mark ..⟩

/-- Two scopes differ in the names of their innermost variables only. -/
theorem akin_inside (b : Binder) (tag other : Tag) :
    Akin (fun name => name = tag.text ∨ name = other.text) (inside [tag] b) (inside [other] b) := by
  refine ⟨rfl, rfl, fun name together => ?_⟩
  obtain ⟨first, second⟩ := not_or.1 together
  have missing : (tag.text == name) = false := beq_eq_false_iff_ne.2 fun same => first same.symm
  have missing' : (other.text == name) = false := beq_eq_false_iff_ne.2 fun same => second same.symm
  rw [depthOf?_inside, depthOf?_inside]
  simp [missing, missing']

theorem depthOf?_innermost (b : Binder) (tag : Tag) : depthOf? (inside [tag] b).locals tag.text = some 0 := by
  simp [depthOf?_inside]

/-- The innermost variable is found by its name. -/
theorem resolve_innermost (named : tag.text ≠ "_") (found : depthOf? b.locals tag.text = some 0) :
    resolve tag b = (.ok (.var 0 tag), marked b) := by
  rw [resolve_apply, if_neg (by simpa using named), found]
  dsimp only
  rw [Local.modify_eq_mark, marked]

end BindM

section Operation

variable {operator hole tag : Tag} {operand : BindM Term} {b b₀ : Binder} {e e' : Effect Term}

/-- What an operator and its operand come to, one after the other. -/
def outcomeOf (e e' : Effect Term) : Except BindError (Term × Term) :=
  e.result.bind fun head => e'.result.map fun t => (head, t)

theorem outcomeOf_ok {head t : Term} (success : outcomeOf e e' = .ok (head, t)) :
    e.result = .ok head ∧ e'.result = .ok t := by
  obtain ⟨found, outer, success⟩ := bind_ok success
  cases inner : e'.result with
  | error failure =>
    rw [inner] at success
    cases success
  | ok found' =>
    rw [inner] at success
    cases success
    exact ⟨outer, rfl⟩

/-- The binder behind an operator and its operand. -/
def behind (b : Binder) (e e' : Effect Term) : Binder :=
  match e.result with
  | .error _ => b.after (outside e)
  | .ok _ => (b.after (outside e)).after (outside e')

section Runs

variable (first : ∀ b', Akin apart b₀ b' → resolve operator b' = (e.result, b'.after e))
  (second : ∀ b', Akin apart (b₀.after e) b' → operand b' = (e'.result, b'.after e'))
  (akin : Akin apart b₀ (inside [tag] b)) (named : hole.text ≠ "_") (same : hole.text = tag.text)

include first second akin named same

/-- The left operand is a variable that has just come into scope. -/
theorem withLocals_left : withLocals [tag] (do
      let head ← resolve operator
      let left ← resolve hole
      return head.applyAll [left, ← operand]) b =
    ((outcomeOf e e').map fun (head, t) => head.applyAll [.var 0 hole, t], behind b e e') := by
  have found : depthOf? ((inside [tag] b).after e).locals hole.text = some 0 := by
    rw [after, depthOf?_mark, same, depthOf?_innermost]
  obtain ⟨final, ran, left⟩ : ∃ final, (do
      let head ← resolve operator
      let left ← resolve hole
      return head.applyAll [left, ← operand] : BindM Term) (inside [tag] b) =
        ((outcomeOf e e').map fun (head, t) => head.applyAll [.var 0 hole, t], final) ∧
          popped final = behind b e e' := by
    rw [bind_apply, first _ akin, outcomeOf, behind]
    cases e.result with
    | error failure => exact ⟨_, rfl, popped_after _ e⟩
    | ok head =>
      dsimp only
      rw [bind_apply, resolve_innermost named found]
      dsimp only
      rw [bind_apply, second _ ((akin.after e).trans (akin_marked _))]
      refine ⟨(marked ((inside [tag] b).after e)).after e', ?_, ?_⟩
      · cases e'.result <;> rfl
      · rw [popped_after, popped_marked, popped_after]
        rfl
  rw [withLocals_of_ran ran, ← left]
  rfl

/-- The right operand is a variable that has just come into scope. -/
theorem withLocals_right : withLocals [tag] (do
      let head ← resolve operator
      let left ← operand
      return head.applyAll [left, ← resolve hole]) b =
    ((outcomeOf e e').map fun (head, t) => head.applyAll [t, .var 0 hole], behind b e e') := by
  have found : depthOf? (((inside [tag] b).after e).after e').locals hole.text = some 0 := by
    rw [after, after, depthOf?_mark, depthOf?_mark, same, depthOf?_innermost]
  obtain ⟨final, ran, left⟩ : ∃ final, (do
      let head ← resolve operator
      let left ← operand
      return head.applyAll [left, ← resolve hole] : BindM Term) (inside [tag] b) =
        ((outcomeOf e e').map fun (head, t) => head.applyAll [t, .var 0 hole], final) ∧
          popped final = behind b e e' := by
    rw [bind_apply, first _ akin, outcomeOf, behind]
    cases e.result with
    | error failure => exact ⟨_, rfl, popped_after _ e⟩
    | ok head =>
      dsimp only
      rw [bind_apply, second _ (akin.after e)]
      have outer : popped (((inside [tag] b).after e).after e') = (b.after (outside e)).after (outside e') := by
        rw [popped_after, popped_after]
        rfl
      cases e'.result with
      | error failure => exact ⟨_, rfl, outer⟩
      | ok t =>
        dsimp only
        rw [bind_apply, resolve_innermost named found]
        exact ⟨_, rfl, (popped_marked _).trans outer⟩
  rw [withLocals_of_ran ran, ← left]
  rfl

end Runs

end Operation

/-! ### Nothing is captured -/

theorem not_beneath {t : Term} (unused : t.uses 0 = false) (count : Nat) (tag : Tag) :
    ¬(Term.var count tag).Beneath count t := by
  intro occurs
  have used : t.uses 0 = true := Term.uses_iff.2 ⟨count, tag, by rwa [Nat.zero_add]⟩
  rw [unused] at used
  cases used

/-- A variable that work does not mark is not used by the term that the work builds. -/
theorem uses_innermost {work : BindM Term} {built : Term → List LocalDefinition → Prop} (builds : work.Builds built)
    {b : Binder} {e : Effect Term} {t : Term} {tag : Tag} {rest : List Local} (ran : work b = (.ok t, b.after e))
    (fresh : b.locals = ⟨tag, false⟩ :: rest) (unmarked : e.used 0 = false) : t.uses 0 = false := by
  obtain ⟨_, ds, ⟨rfl, -⟩, left⟩ := builds b t _ ran
  have marks : (Local.mark e.used b.locals)[0]? = (Local.mark t.uses b.locals)[0]? :=
    congrArg (fun b : Binder => b.locals[0]?) left
  rw [Local.getElem?_mark, Local.getElem?_mark, fresh, unmarked] at marks
  simpa using marks.symm

/-- Under a name that work does not look up, the work does not mark the variable. -/
theorem unmarked_innermost {b : Binder} {e : Effect Term} {tag : Tag} {rest : List Local}
    (used : ∀ depth, e.used depth = true → ∃ name, ¬apart name ∧ depthOf? b.locals name = some depth)
    (fresh : b.locals = ⟨tag, false⟩ :: rest) (hidden : apart tag.text) : e.used 0 = false := by
  rw [← Bool.not_eq_true]
  intro marked
  obtain ⟨name, together, found⟩ := used 0 marked
  rw [fresh, depthOf?, List.findIdx?_cons] at found
  split at found
  · next same => exact together (eq_of_beq same ▸ hidden)
  · simp at found

theorem repeatedName?_single (tag : Tag) : repeatedName? [] [tag] = none := by
  rw [repeatedName?]
  split <;> rfl

/-- A function of one name takes what it is called with as it is. -/
theorem bindFunction_name (x : Tag) (body : BindM Term) (b : Binder) :
    bindFunction [.name x] body b = ((withLocals [x] body b).1.map (.lam x), (withLocals [x] body b).2) := by
  have single : ∃ seen, distinctNames [] [x] = Pure.pure seen := by
    rw [distinctNames, repeatedName?_single]
    exact ⟨_, rfl⟩
  obtain ⟨seen, distinct⟩ := single
  rw [bindFunction, bind_apply]
  change (do
    let _ ← distinctNames [] [x]
    return Pattern.abstractAll (← withLocals [x] body) [.name x] : BindM Term) b = _
  rw [distinct, bind_apply]
  change (do return Term.lam x (← withLocals [x] body) : BindM Term) b = _
  rw [bind_apply]
  rcases withLocals [x] body b with ⟨_ | t, after⟩ <;> rfl

theorem bind_sectionOf (body : Tree) (span : Span) (b : Binder) : Tree.bind (.sectionOf body span) b =
    ((withLocals [.synthetic sectionName] body.bind b).1.map (.lam (.synthetic sectionName)),
      (withLocals [.synthetic sectionName] body.bind b).2) := by
  rw [Tree.bind]
  change (do return Term.lam (.synthetic sectionName) (← withLocals [.synthetic sectionName] body.bind) : BindM Term) b =
    _
  rw [bind_apply]
  rcases withLocals [.synthetic sectionName] body.bind b with ⟨_ | t, after⟩ <;> rfl

namespace Tree

/-- Every section in a whole tree, or in the body of a section, is whole. -/
theorem whole_of_part {t x : Tree} (closed : x.isSection = true) (part : Part x t) (whole : t.Whole ∨ t.Lacking) :
    x.Whole := by
  have gap {span : Span} (part : Part x (.placeholder span)) : x.Whole := by
    obtain rfl | ⟨child, inside, -⟩ := part_iff.1 part
    · cases closed
    · cases inside
  induction part with
  | root =>
    rcases whole with whole | lacking
    · exact whole
    · cases lacking <;> cases closed
  | under inside part ih =>
    rcases whole with whole | lacking
    · cases whole with
      | node _ _ children => exact ih (.inl (children _ inside))
      | lacksLeft behind => exact ih (.inr (List.mem_singleton.1 inside ▸ .left behind))
      | lacksRight before => exact ih (.inr (List.mem_singleton.1 inside ▸ .right before))
    · cases lacking with
      | left behind =>
        rcases List.mem_cons.1 inside with rfl | inside
        · exact gap part
        · exact ih (.inl (List.mem_singleton.1 inside ▸ behind))
      | right before =>
        rcases List.mem_cons.1 inside with rfl | inside
        · exact ih (.inl before)
        · exact gap (List.mem_singleton.1 inside ▸ part)

end Tree

/-- The sections of a source are those of an operator and a whole operand. -/
theorem Parser.parse_section {text : String} {origin : Origin} {t body : Tree} {q : Parser} {span : Span}
    (parsed : parseUnder .default origin text = .ok (t, q)) (part : Tree.Part (.sectionOf body span) t) :
    ∃ operator gap operand, (body = .infixOp operator (.placeholder gap) operand ∨
      body = .infixOp operator operand (.placeholder gap)) ∧
      operand.Whole ∧ operand.Each Tree.Spelled ∧ Unspaced operator.text := by
  have inner : body.Each Tree.Spelled := ((spelled_of_parse parsed).part part).child (List.mem_singleton_self _)
  cases Tree.whole_of_part rfl part (.inl (whole_of_run parsed)) with
  | node _ plain => cases plain
  | @lacksLeft operator gap _ operand behind =>
    exact ⟨operator, gap, operand, .inl rfl, behind, inner.child (by simp [Tree.children]),
      inner _ .root _ (List.mem_singleton_self _)⟩
  | @lacksRight operator gap _ operand before =>
    exact ⟨operator, gap, operand, .inr rfl, before, inner.child (by simp [Tree.children]),
      inner _ .root _ (List.mem_singleton_self _)⟩

/-- The section of an operator and a whole operand becomes what the abstraction over any name becomes that is neither
`_` nor the operator nor mentioned in the operand, with the same marks and warnings or the same error. Nothing in the
operand, nor the operator, is the operand that the section leaves out. Every section of a source has such an operator
and operand, by `Parser.parse_section`. -/
theorem bind_section {operator : Tag} {operand : Tree} (whole : operand.Whole) (spelled : operand.Each Tree.Spelled)
    (unspaced : Unspaced operator.text) {x use : Tag} (same : use.text = x.text) (named : x.text ≠ "_")
    (other : x.text ≠ operator.text) (fresh : operand.mentions x.text = false) (arrow : Tag) (gap span : Span)
    (b : Binder) :
    let hidden := Tag.synthetic sectionName
    let hole : Tag := ⟨sectionName, gap, .synthetic⟩
    ∃ (outcome : Except BindError (Term × Term)) (after : Binder),
      Tree.bind (.sectionOf (.infixOp operator (.placeholder gap) operand) span) b =
          (outcome.map fun (head, t) => .lam hidden (head.applyAll [.var 0 hole, t]), after) ∧
        Tree.bind (.lambda arrow (.name x) (.infixOp operator (.name use) operand)) b =
          (outcome.map fun (head, t) => .lam x (head.applyAll [.var 0 use, t]), after) ∧
        Tree.bind (.sectionOf (.infixOp operator operand (.placeholder gap)) span) b =
          (outcome.map fun (head, t) => .lam hidden (head.applyAll [t, .var 0 hole]), after) ∧
        Tree.bind (.lambda arrow (.name x) (.infixOp operator operand (.name use))) b =
          (outcome.map fun (head, t) => .lam x (head.applyAll [t, .var 0 use]), after) ∧
        ∀ head t, outcome = .ok (head, t) → ∀ count tag,
          ¬(Term.var count tag).Beneath count head ∧ ¬(Term.var count tag).Beneath count t := by
  intro hidden hole
  let apart : String → Prop := fun name => name = hidden.text ∨ name = x.text
  have avoids : operand.Avoids apart := by
    refine ⟨whole, spelled, ?_⟩
    rintro name (rfl | rfl) visible
    · exact absurd rfl visible
    · exact fresh
  have visible : ¬apart operator.text := by
    rintro (same | same)
    · exact unspaced_ne unspaced same
    · exact other same.symm
  obtain ⟨e, used, first⟩ := resolve_ignores visible (inside [hidden] b)
  obtain ⟨e', used', second⟩ := operand.bind_ignores avoids ((inside [hidden] b).after e)
  have akin := akin_inside b hidden x
  have visible_hole : hole.text ≠ "_" := (by decide : sectionName ≠ "_")
  have visible_use : use.text ≠ "_" := same ▸ named
  refine ⟨outcomeOf e e', behind b e e', ?_, ?_, ?_, ?_, ?_⟩
  · rw [bind_sectionOf, Tree.bind, Tree.bind, withLocals_left first second (.refl _) visible_hole rfl]
    cases outcomeOf e e' <;> rfl
  · rw [Tree.bind, show Tree.parameters (.name x) = [.name x] from rfl, bindFunction_name, Tree.bind, Tree.bind,
      withLocals_left first second akin visible_use same]
    cases outcomeOf e e' <;> rfl
  · rw [bind_sectionOf, Tree.bind, Tree.bind, withLocals_right first second (.refl _) visible_hole rfl]
    cases outcomeOf e e' <;> rfl
  · rw [Tree.bind, show Tree.parameters (.name x) = [.name x] from rfl, bindFunction_name, Tree.bind, Tree.bind,
      withLocals_right first second akin visible_use same]
    cases outcomeOf e e' <;> rfl
  · intro head t success count tag
    obtain ⟨outer, inner⟩ := outcomeOf_ok success
    have unmarked := unmarked_innermost used rfl (.inl rfl)
    have scope : ((inside [hidden] b).after e).locals = ⟨hidden, false⟩ :: Local.mark (e.used <| · + 1) b.locals := by
      simp [after, inside, Local.mark, unmarked]
    have head_unused : head.uses 0 = false :=
      uses_innermost (resolve_builds operator) (outer ▸ first _ (.refl _)) rfl unmarked
    have t_unused : t.uses 0 = false :=
      uses_innermost operand.bind_builds (inner ▸ second _ (.refl _)) scope (unmarked_innermost used' scope (.inl rfl))
    exact ⟨not_beneath head_unused count tag, not_beneath t_unused count tag⟩

/-- `(- y) 1` -/
def subtracted : Tree :=
  .apply (.sectionOf (.infixOp ⟨"-", ⟨5, 6⟩, .module⟩ (.placeholder ⟨5, 5⟩) (.name ⟨"y", ⟨7, 8⟩, .module⟩)) ⟨4, 9⟩)
    (.int 1 ⟨10, 11⟩) ⟨4, 11⟩

/-- Where `y` is a variable in scope, `(- ((- y) 1))` is bound as `n -> n - ((- y) 1)` is. -/
theorem bind_section_nested :
    let minus : Tag := ⟨"-", ⟨1, 2⟩, .module⟩
    let n : Tag := ⟨"n", ⟨0, 1⟩, .module⟩
    let b : Binder := ⟨#[], [], [⟨⟨"y", ⟨0, 1⟩, .module⟩, false⟩], []⟩
    let difference (left : Tag) : Term := .applyAll (.builtin .sub minus) [.var 0 left,
      .app (.lam (.synthetic sectionName) (.applyAll (.builtin .sub ⟨"-", ⟨5, 6⟩, .module⟩)
        [.var 0 ⟨sectionName, ⟨5, 5⟩, .synthetic⟩, .var 2 ⟨"y", ⟨7, 8⟩, .module⟩])) (.int 1)]
    ∃ after,
      Tree.bind (.sectionOf (.infixOp minus (.placeholder ⟨1, 1⟩) subtracted) ⟨0, 13⟩) b =
          (.ok (.lam (.synthetic sectionName) (difference ⟨sectionName, ⟨1, 1⟩, .synthetic⟩)), after) ∧
        Tree.bind (.lambda minus (.name n) (.infixOp minus (.name n) subtracted)) b =
          (.ok (.lam n (difference n)), after) := by
  intro minus n b difference
  have whole : subtracted.Whole := by
    refine .node rfl rfl fun child inside => ?_
    rcases List.mem_cons.1 inside with rfl | inside
    · exact .lacksLeft (Tree.whole_leaf rfl)
    · rw [List.mem_singleton.1 inside]
      exact Tree.whole_leaf rfl
  have leaf {t : Tree} (alone : t.children = []) (root : t.Spelled) : t.Each Tree.Spelled :=
    Tree.each_iff.2 ⟨root, by simp [alone]⟩
  have body : (Tree.infixOp ⟨"-", ⟨5, 6⟩, .module⟩ (.placeholder ⟨5, 5⟩) (.name ⟨"y", ⟨7, 8⟩, .module⟩)).Each
      Tree.Spelled := by
    refine Tree.each_iff.2 ⟨by simp [Tree.Spelled, Tree.texts, Unspaced], List.forall_mem_cons.2 ⟨?_, ?_⟩⟩
    · exact leaf rfl (Tree.spelled_none rfl)
    · exact List.forall_mem_singleton.2 (leaf rfl (by simp [Tree.Spelled, Tree.texts, Unspaced]))
  have spelled : subtracted.Each Tree.Spelled := by
    refine Tree.each_iff.2 ⟨Tree.spelled_none rfl, List.forall_mem_cons.2 ⟨?_, ?_⟩⟩
    · exact Tree.each_iff.2 ⟨Tree.spelled_none rfl, List.forall_mem_singleton.2 body⟩
    · exact List.forall_mem_singleton.2 (leaf rfl (Tree.spelled_none rfl))
  have unspaced : Unspaced minus.text := by decide
  have fresh : n.text ≠ "_" ∧ n.text ≠ minus.text ∧ subtracted.mentions n.text = false := by decide
  obtain ⟨outcome, after, left, right, -⟩ :=
    bind_section whole spelled unspaced (rfl : n.text = n.text) fresh.1 fresh.2.1 fresh.2.2 minus ⟨1, 1⟩ ⟨0, 13⟩ b
  have bound : (Tree.bind (.sectionOf (.infixOp minus (.placeholder ⟨1, 1⟩) subtracted) ⟨0, 13⟩) b).1.toOption =
      some (.lam (.synthetic sectionName) (difference ⟨sectionName, ⟨1, 1⟩, .synthetic⟩)) := by
    decide +kernel
  rw [left] at bound
  rcases outcome with failure | ⟨head, t⟩
  · cases bound
  · cases bound
    exact ⟨after, left, right⟩

end MixfixLambda
