import Mathlib.Data.List.Chain
import MixfixLambda.Proofs.Parse.Stack
import MixfixLambda.Proofs.Syntax.Registry

/-!
# Scopes, layout and open brackets

Every open bracket has a scope of the registry and an entry of the layout. All three grow and shrink
together, although blocks are opened and closed on other ways than written brackets, so that a source
leaves the rules as they were, but for what it declares outside of its brackets and blocks.
-/
namespace MixfixLambda

/-- An opening bracket, if it is one, that the parser does not take for one of its own and that does not
vanish as a separator. -/
def Rule.Written (rule : Rule) : Prop :=
  rule.fixity = .opening →
    rule.reduction ≠ .bracket .block ∧ rule.reduction ≠ .bracket .file ∧ rule.reduction ≠ .sequence

theorem Rule.bracketKind_eq {rule : Rule} {kind : BracketKind} :
    rule.bracketKind = some kind ↔ rule.reduction = .bracket kind := by
  unfold bracketKind
  split
  · next same => simp [same]
  · next other => simpa using other kind

/-- What a layout entry says of the bracket that it belongs to. -/
def Layout.Stands (layout : Layout) (bracket : Rule) : Prop :=
  (∃ width, layout = .block width) ↔ bracket = Parser.fileRule ∨ bracket = Parser.blockRule

namespace Parser

variable {p q r start : Parser} {C : Pending → Prop}

/-- The indentations of the open blocks, innermost first. -/
def widths (layout : List Layout) : List Nat :=
  layout.filterMap fun
    | .block width => some width
    | .explicit => none

/-- The open brackets, the scopes and the layout are in step. -/
structure InStep (depth : Nat) (p : Parser) : Prop where
  layout : List.Forall₂ Layout.Stands p.layout (opened p.pending)
  file : ∃ inner, opened p.pending = inner ++ [fileRule] ∧ fileRule ∉ inner
  depth : p.registry.depth + 1 = depth + (opened p.pending).length
  widths : (widths p.layout).IsChain fun inner outer => outer < inner ∧ (inner - outer) % 2 = 0

/-- Nothing is open around the file. -/
theorem InStep.outermost {depth : Nat} {outer : List Rule} (step : InStep depth p)
    (here : opened p.pending = fileRule :: outer) : outer = [] := by
  obtain ⟨inner, whole, once⟩ := step.file
  rw [here] at whole
  cases inner with
  | nil => exact (List.cons.inj whole).2
  | cons first inner =>
    obtain ⟨rfl, -⟩ := List.cons.inj whole
    exact absurd (List.mem_cons_self ..) once

/-- A bracket inside the file is a block of the parser or one that was written. -/
def Inner (rule : Rule) : Prop :=
  rule = blockRule ∨
    rule.bracketKind ≠ some .block ∧ rule.bracketKind ≠ some .file ∧ rule.isSeparator = false

/-- An operator lies in a bracket. -/
def Enclosed (o : Pending) (below : List Pending) : Prop :=
  opened (o :: below) ≠ []

theorem enclosed_unmarked : Unmarked Enclosed where
  under {o below} enclosed := by
    intro none
    refine enclosed ?_
    cases opens : o.rule.isOpener
    · rw [opened_operator opens] at none ⊢
      rwa [opened_markSection] at none
    · rw [opened_opener opens] at none
      cases none
  here opens _ := by simp [Enclosed, opened, opens]

/-- What keeps the parser in step, besides. -/
structure Scoped (depth : Nat) (p : Parser) : Prop where
  base : 0 < depth
  stack : Stacked p.pending
  enclosed : Stackwise Enclosed p.pending
  step : InStep depth p
  inner : ∀ rule ∈ opened p.pending, rule = fileRule ∨ Inner rule
  unstarted : p.started = false → blockRule ∉ opened p.pending
  written : ∀ e ∈ p.registry.entries, e.rule.Written

variable {depth : Nat} {rule : Rule} {tag : Tag} {place : Nat} {ends : Nat → Bool} {token : Token}
  {span : Span}

theorem inner_facts (inner : Inner rule) : rule ≠ fileRule ∧ rule.isSeparator = false := by
  rcases inner with rfl | ⟨-, file, separator⟩
  · exact ⟨by decide, rfl⟩
  · refine ⟨?_, separator⟩
    rintro rfl
    exact file rfl

theorem default_written : ∀ e ∈ Registry.default.entries, e.rule.Written := by
  have rules : ∀ rule ∈ defaultRules, rule.fixity = .opening → rule.reduction ≠ .bracket .block ∧
      rule.reduction ≠ .bracket .file ∧ rule.reduction ≠ .sequence := by
    decide +kernel
  exact fun e inside => rules _ (Registry.mem_default_entries inside).2

theorem scoped_start {registry : Registry} (written : ∀ e ∈ registry.entries, e.rule.Written) (origin : Origin) :
    Scoped registry.depth (.start registry origin) where
  base := Nat.succ_pos _
  stack := .cons ⟨by simp [Pending.leading, fileRule, Rule.opening], by simp [Pending.leading]⟩ .nil
  enclosed := .cons (List.cons_ne_nil _ _) .nil
  step :=
    { layout := .cons ⟨fun _ => .inl rfl, fun _ => ⟨0, rfl⟩⟩ .nil
      file := ⟨[], rfl, by simp⟩
      depth := rfl
      widths := .singleton 0 }
  inner := fun rule inside => .inl (List.mem_singleton.1 inside)
  unstarted := fun _ => show blockRule ∉ [fileRule] by decide
  written := written

/-- Operators are nothing to the scopes and the layout. -/
theorem Scoped.congr (s : Scoped depth p) (stack : Stacked q.pending)
    (enclosed : Stackwise Enclosed q.pending) (same : opened q.pending = opened p.pending)
    (layout : q.layout = p.layout) (started : q.started = p.started) (scopes : q.registry.depth = p.registry.depth)
    (written : ∀ e ∈ q.registry.entries, e.rule.Written) : Scoped depth q := by
  obtain ⟨base, -, -, ⟨stands, file, depth, widths⟩, inner, unstarted, -⟩ := s
  refine ⟨base, stack, enclosed, ⟨?_, ?_, ?_, ?_⟩, ?_, ?_, written⟩
  · rwa [layout, same]
  · rwa [same]
  · rwa [scopes, same]
  · rwa [layout]
  · rwa [same]
  · rwa [started, same]

theorem rules_written {d : Declaration} : ∀ r ∈ d.rules, r.2.Written := by
  rintro ⟨symbol, rule⟩ inside opens
  obtain ⟨-, -, ⟨rfl, -⟩ | ⟨-, opening, closing, -, same | same⟩⟩ := Declaration.mem_rules inside
  · have operator : (d.ruleOf symbol.text).fixity ≠ .opening := by
      unfold Declaration.ruleOf
      cases d.kind <;> cases d.prior <;> exact Fixity.noConfusion
    exact absurd opens operator
  · cases same
    simp [Rule.opening]
  · cases same
    cases opens

theorem Scoped.separators (s : Scoped depth p) : ∀ rule ∈ opened p.pending, rule.isSeparator = false := by
  intro rule inside
  rcases s.inner rule inside with rfl | inner
  · rfl
  · exact (inner_facts inner).2

theorem Scoped.edit (s : Scoped depth p) (edit : Edit p q) : Scoped depth q := by
  obtain ⟨layout, started, -⟩ := edit.frame
  refine s.congr (edit.stackwise fits_unmarked s.stack) (edit.stackwise enclosed_unmarked s.enclosed)
    (edit.brackets opened_ofBrackets s.stack s.separators) layout started ?_ ?_
  · rcases edit.registry with same | ⟨_, _, _, _, _, -, -, -, -, -, -, -, scope, -⟩
    · rw [same]
    · rw [Registry.depth, scope]
      rfl
  · rcases edit.registry with same | ⟨_, _, _, _, d, -, -, -, -, -, -, -, -, entries, -⟩
    · rw [same]
      exact s.written
    · intro e inside
      rw [entries, List.mem_append, List.mem_reverse, List.mem_map] at inside
      rcases inside with ⟨r, inside, rfl⟩ | inside
      · exact rules_written r inside
      · exact s.written e inside

theorem Scoped.edits (s : Scoped depth p) (edits : Relation.ReflTransGen Edit p q) : Scoped depth q :=
  edits_keep (fun edit s => Scoped.edit s edit) edits s

/-- What depends on the open brackets alone is the same after what happens inside a bracket. -/
theorem Scoped.brackets {α : Type} {f : List Pending → α} (s : Scoped depth p) (ofBrackets : OfBrackets f)
    (edits : Relation.ReflTransGen Edit p q) : f q.pending = f p.pending := by
  refine (edits_keep (I := fun r => Scoped depth r ∧ f r.pending = f p.pending) ?_ edits ⟨s, rfl⟩).2
  rintro q r edit ⟨s, same⟩
  exact ⟨s.edit edit, (edit.brackets ofBrackets s.stack s.separators).trans same⟩

/-- The bracket that the end of a source closes is the file, under which nothing waits. -/
theorem Scoped.file {opener : Pending} {below : List Pending} (s : Scoped depth p) (here : p.pending = opener :: below)
    (opens : opener.rule.isOpener = true) (file : opener.rule.bracketKind = some .file) :
    opener.rule = fileRule ∧ below = [] := by
  have brackets : opened p.pending = opener.rule :: opened below := by rw [here, opened_opener opens]
  have last : opener.rule = fileRule := by
    rcases s.inner opener.rule (by rw [brackets]; exact List.mem_cons_self ..) with last | block | written
    · exact last
    · rw [block] at file
      cases file
    · exact absurd file written.2.1
  have enclosed := s.enclosed
  rw [here] at enclosed
  cases below with
  | nil => exact ⟨last, rfl⟩
  | cons o rest => exact absurd (s.step.outermost (last ▸ brackets)) enclosed.tail.head

/-- What the parser holds at the end of a source is the content of the file. -/
theorem Scoped.content {opener : Pending} {below : List Pending} {x : Tree} (s : Scoped depth p)
    (here : p.pending = opener :: below) (opens : opener.rule.isOpener = true)
    (file : opener.rule.bracketKind = some .file) (said : p.Says x) : ∃ t ∈ p.operand, Tree.Part x t := by
  obtain ⟨last, rfl⟩ := s.file here opens file
  have stack := s.stack
  refine said.resolve_right fun kept => ?_
  rw [here] at kept stack
  rw [kept_cons, stack.head.none (.inl (by simp [last, fileRule, Rule.opening]))] at kept
  simp [Kept] at kept

theorem Scoped.opened_ne_nil (s : Scoped depth p) : opened p.pending ≠ [] := by
  obtain ⟨inner, file, -⟩ := s.step.file
  rw [file]
  exact List.append_ne_nil_of_right_ne_nil _ (List.cons_ne_nil _ _)

/-- What is put on the stack is enclosed by what was open before. -/
theorem Scoped.encloses (s : Scoped depth p) (o : Pending) : Stackwise Enclosed (o :: p.pending) := by
  refine .cons (fun none => ?_) s.enclosed
  cases opens : o.rule.isOpener
  · rw [opened_operator opens] at none
    exact s.opened_ne_nil none
  · rw [opened_opener opens] at none
    cases none

theorem Scoped.push (s : Scoped depth p) (operator : rule.isOpener = false)
    (stack : Stacked (p.push rule tag).pending) : Scoped depth (p.push rule tag) :=
  s.congr stack (s.encloses _) (opened_operator operator _) rfl rfl rfl s.written

theorem not_opener (fixity : rule.fixity ≠ .opening) : rule.isOpener = false := by
  simpa [Rule.isOpener] using fixity

theorem Scoped.behind (s : Scoped depth p) (behind : p.operand.isSome = true) (ready : Ready p rule r)
    (between : rule.fixity = .infixOp) : Scoped depth (r.push rule tag) :=
  (s.edits ready.edits).push (not_opener (by rw [between]; exact Fixity.noConfusion))
    (s.stack.behind behind ready between)

theorem Scoped.room (s : Scoped depth p) (room : Room p place r) : Scoped depth r := by
  cases room with
  | empty => exact s
  | juxtaposed behind ready => exact s.behind behind ready rfl

theorem Scoped.brackets_room {α : Type} {f : List Pending → α} (s : Scoped depth p) (ofBrackets : OfBrackets f)
    (room : Room p place r) : f r.pending = f p.pending := by
  cases room with
  | empty => rfl
  | juxtaposed _ ready => exact (ofBrackets.operator rfl).trans (s.brackets ofBrackets ready.edits)

/-- An operand changes nothing. -/
theorem Scoped.operand (s : Scoped depth p) (t : Option Tree) : Scoped depth { p with operand := t } :=
  s.congr s.stack s.enclosed rfl rfl rfl rfl s.written

/-- A written bracket opens a scope in which line breaks mean nothing. -/
theorem Scoped.openBracket (s : Scoped depth p) (opens : rule.fixity = .opening) (written : rule.Written)
    (empty : p.operand = none) : Scoped depth (p.openBracket rule tag) := by
  obtain ⟨noBlock, noFile, noSequence⟩ := written opens
  have kinds : rule.bracketKind ≠ some .block ∧ rule.bracketKind ≠ some .file :=
    ⟨noBlock ∘ Rule.bracketKind_eq.1, noFile ∘ Rule.bracketKind_eq.1⟩
  have inner : Inner rule := .inr ⟨kinds.1, kinds.2, by simpa [Rule.isSeparator] using noSequence⟩
  have plain : rule ≠ blockRule := by
    rintro rfl
    exact kinds.1 rfl
  have here : opened (p.openBracket rule tag).pending = rule :: opened p.pending :=
    opened_opener (by simpa [Rule.isOpener, Pending.leading] using opens) _
  have layout : (p.openBracket rule tag).layout = .explicit :: p.layout := by
    simp [Parser.openBracket, Parser.push, kinds.1]
  have leads : rule.fixity ≠ .infixOp := by
    rw [opens]
    exact Fixity.noConfusion
  obtain ⟨stands, ⟨brackets, file, once⟩, scopes, deeper⟩ := s.step
  refine ⟨s.base, s.stack.leading empty leads, s.encloses _, ⟨?_, ?_, ?_, ?_⟩, ?_, ?_, s.written⟩
  · rw [layout, here]
    exact .cons (by simp [Layout.Stands, (inner_facts inner).1, plain]) stands
  · exact ⟨rule :: brackets, by rw [here, file]; rfl, by simp [once, (inner_facts inner).1.symm]⟩
  · rw [here, List.length_cons]
    change p.registry.depth + 1 + 1 = _
    omega
  · rw [layout]
    exact deeper
  · rw [here, List.forall_mem_cons]
    exact ⟨.inr inner, s.inner⟩
  · intro unstarted
    rw [here, List.mem_cons, not_or]
    exact ⟨plain.symm, s.unstarted unstarted⟩

/-- Outside of written brackets the layout ends with the indentation of a block or of the file. -/
theorem Scoped.layout_block (s : Scoped depth p) (outside : p.layout.head? ≠ some .explicit) :
    ∃ outer, p.layout = .block p.indentation :: outer := by
  obtain ⟨brackets, file, -⟩ := s.step.file
  have same := s.step.layout.length_eq
  cases here : p.layout with
  | nil =>
    rw [here, file] at same
    simp at same
  | cons layout outer =>
    cases layout with
    | explicit =>
      rw [here] at outside
      exact absurd rfl outside
    | block width => exact ⟨outer, by rw [indentation, here]⟩

theorem Scoped.openBlock {width : Nat} (s : Scoped depth p) (outside : p.layout.head? ≠ some .explicit)
    (started : p.started = true) (deeper : p.indentation < width) (even : (width - p.indentation) % 2 = 0)
    (empty : p.operand = none) : Scoped depth (p.openBlock width span) := by
  have here : opened (p.openBlock width span).pending = blockRule :: opened p.pending := opened_opener rfl _
  have layout : (p.openBlock width span).layout = .block width :: p.layout := rfl
  obtain ⟨outer, block⟩ := s.layout_block outside
  obtain ⟨stands, ⟨brackets, file, once⟩, scopes, chain⟩ := s.step
  refine ⟨s.base, s.stack.leading empty Fixity.noConfusion, s.encloses _, ⟨?_, ?_, ?_, ?_⟩, ?_, ?_, s.written⟩
  · rw [layout, here]
    exact .cons ⟨fun _ => .inr rfl, fun _ => ⟨width, rfl⟩⟩ stands
  · exact ⟨blockRule :: brackets, by rw [here, file]; rfl, by simp [once]; decide⟩
  · rw [here, List.length_cons]
    change p.registry.depth + 1 + 1 = _
    omega
  · rw [layout, block]
    rw [block] at chain
    exact .cons_cons ⟨deeper, even⟩ chain
  · rw [here, List.forall_mem_cons]
    exact ⟨.inr (.inl rfl), s.inner⟩
  · intro unstarted
    exact absurd (started.symm.trans unstarted) Bool.noConfusion

/-- Closing a bracket leaves its scope and its layout. -/
theorem Scoped.closes (s : Scoped depth p) (closes : Closes C p q) (inside : ∀ o, C o → o.rule ≠ fileRule) :
    Scoped depth q := by
  obtain @⟨r, opener, below, closing, t, edits, here, opens, partner, -⟩ := closes
  have s' := s.edits edits
  have brackets : opened r.pending = opener.rule :: opened below := by rw [here, opened_opener opens]
  obtain ⟨base, stack, enclosed, ⟨stands, ⟨inner, file, once⟩, scopes, chain⟩, kinds, unstarted, written⟩ := s'
  rw [brackets] at stands file scopes kinds unstarted
  obtain ⟨inner', rfl, rest⟩ : ∃ inner', inner = opener.rule :: inner' ∧ opened below = inner' ++ [fileRule] := by
    cases inner with
    | nil =>
      obtain ⟨same, -⟩ := List.cons.inj file
      exact absurd same (inside opener partner)
    | cons first inner' =>
      obtain ⟨rfl, rest⟩ := List.cons.inj file
      exact ⟨inner', rfl, rest⟩
  rw [here] at stack enclosed
  have length := congrArg List.length rest
  simp only [List.length_append, List.length_singleton] at length
  simp only [List.length_cons] at scopes
  have above : r.registry.scope ≠ 0 := by
    unfold Registry.depth at scopes
    omega
  obtain ⟨first, outer, -, stands, layout⟩ := List.forall₂_cons_right_iff.1 stands
  rw [layout] at chain
  refine ⟨base, stack.tail, enclosed.tail, ⟨?_, ⟨inner', rest, ?_⟩, ?_, ?_⟩, ?_, ?_, ?_⟩
  · change List.Forall₂ _ r.layout.tail _
    rwa [layout]
  · simp only [List.mem_cons, not_or] at once
    exact once.2
  · simp only [Registry.popScope, above, if_false, Registry.depth]
    unfold Registry.depth at scopes
    omega
  · change (Parser.widths r.layout.tail).IsChain _
    rw [layout]
    cases first with
    | block width => exact chain.tail
    | explicit => exact chain
  · exact (List.forall_mem_cons.1 kinds).2
  · exact fun not => fun inside => unstarted not (List.mem_cons_of_mem _ inside)
  · intro e inside
    simp only [Registry.popScope, above, if_false] at inside
    exact written e ((List.dropWhile_sublist _).subset inside)

theorem Scoped.dedents (s : Scoped depth p) (dedents : Dedents ends p q) : Scoped depth q := by
  induction dedents with
  | stop => exact s
  | step _ _ closes _ ih =>
    refine ih (s.closes closes fun o block => ?_)
    intro file
    rw [file] at block
    cases block

/-- The first line sets the indentation of the file. -/
theorem Scoped.first {width : Nat} (s : Scoped depth p) (outside : p.layout.head? ≠ some .explicit)
    (unstarted : p.started = false) : Scoped depth
      { p with
        started := true
        layout :=
          match p.layout with
          | .block _ :: outer => .block width :: outer
          | _ => p.layout } := by
  obtain ⟨outer, layout⟩ := s.layout_block outside
  have noBlock := s.unstarted unstarted
  have outermost : ∀ outer, opened p.pending = fileRule :: outer → outer = [] := fun _ => s.step.outermost
  obtain ⟨base, stack, enclosed, ⟨stands, file, scopes, chain⟩, kinds, -, written⟩ := s
  rw [layout] at stands chain
  obtain ⟨bracket, brackets, head, tail, here⟩ := List.forall₂_cons_left_iff.1 stands
  have last : bracket = fileRule := by
    refine (head.1 ⟨_, rfl⟩).resolve_right ?_
    rintro rfl
    rw [here] at noBlock
    exact noBlock (List.mem_cons_self ..)
  obtain rfl : brackets = [] := outermost brackets (here.trans (last ▸ rfl))
  obtain rfl : outer = [] := List.forall₂_nil_right_iff.1 tail
  refine ⟨base, stack, enclosed, ⟨?_, file, scopes, ?_⟩, kinds, nofun, written⟩
  · rw [layout, here, last]
    exact .cons ⟨fun _ => .inl rfl, fun _ => ⟨width, rfl⟩⟩ .nil
  · rw [layout]
    exact .singleton width

theorem Scoped.shifts (s : Scoped depth p) (worded : token.symbol ≠ some "") (shifts : Shifts p span token q) :
    Scoped depth q := by
  have stack := s.stack.shifts shifts
  cases shifts with
  | eof | inside | continues => exact s
  | literal _ room | name _ _ room => exact (s.room room).operand _
  | opening acts opens room =>
    refine Scoped.openBracket (s.room room) opens ?_ room.empties
    exact s.written _ (Registry.mem_of_find? acts.found).1
  | leading _ leads room =>
    exact (s.room room).push (not_opener (by rw [leads]; exact Fixity.noConfusion)) stack
  | closing acts _ closes =>
    refine s.closes closes fun o partner file => worded ?_
    rw [file] at partner
    rw [acts.word, ← (Registry.mem_of_find? acts.found).2]
    exact partner.symm
  | headless _ _ sections =>
    exact s.congr stack (s.encloses _) (opened_operator (not_separator sections).2 _) rfl rfl rfl s.written
  | infixed _ between behind ready => exact s.behind behind ready between
  | postfixed _ _ _ ready => exact (s.edits ready.edits).operand _
  | first outside unstarted => exact s.first outside unstarted
  | indents outside started deeper even empty => exact s.openBlock outside started deeper even empty
  | aligns _ dedents => exact s.dedents dedents
  | separates _ dedents _ behind ready => exact (s.dedents dedents).behind behind ready rfl

/-- Between two tokens everything is in step. -/
theorem taking_scoped {xs : List Lexeme} (s : Scoped depth p) (worded : ∀ x ∈ xs, x.token.symbol ≠ some "")
    (ok : p.taking xs = .ok q) : Scoped depth q := by
  induction xs generalizing p with
  | nil =>
    cases ok
    exact s
  | cons x xs ih =>
    obtain ⟨r, shifted, ok⟩ := bind_ok ok
    rw [List.forall_mem_cons] at worded
    exact ih (s.shifts worded.1 (shift_ok shifted)) worded.2 ok

end Parser

end MixfixLambda
