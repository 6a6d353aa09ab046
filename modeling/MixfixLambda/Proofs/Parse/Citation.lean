import MixfixLambda.Proofs.Parse.Unspaced

/-!
# Where names are read

Every name, operator and bracket of a tree is a word of the source, with its place. Only the parts of a chain
may be line breaks, since `newline` is an operator that a chain can continue; the last part is a word.
-/
namespace MixfixLambda

/-- The tag says the text and the place of a word of the source. -/
def Tag.WordOf (text : String) (origin : Origin) (tag : Tag) : Prop :=
  tag.origin = origin ∧ ∃ x, .ok x ∈ lexemes text ∧ x.token.symbol = some tag.text ∧ x.span = tag.span

/-- The tag has the place of a line break of the source. -/
def Tag.BreakOf (text : String) (origin : Origin) (tag : Tag) : Prop :=
  tag.origin = origin ∧ ∃ width, .ok ⟨.newline width, tag.span⟩ ∈ lexemes text

variable {text : String} {origin : Origin} {tag : Tag}

theorem Tag.WordOf.unspaced (read : tag.WordOf text origin) : Unspaced tag.text := by
  obtain ⟨-, x, inside, symbol, -⟩ := read
  exact lexemes_unspaced inside symbol

/-- The root of a tree is called by words of the source. -/
def Tree.Cites (text : String) (origin : Origin) : Tree → Prop
  | .name tag | .infixOp tag _ _ | .prefixOp tag _ | .postfixOp tag _ => tag.WordOf text origin
  | .mixfix parts _ =>
    (∀ tag ∈ parts, tag.WordOf text origin ∨ tag.BreakOf text origin) ∧ ∃ tag ∈ parts, tag.WordOf text origin
  | .bracket opening closing _ => opening.WordOf text origin ∧ closing.WordOf text origin
  | _ => True

theorem Tree.cites_ofCalls : OfCalls (Tree.Cites text origin) where
  plain {t} plain := by
    cases t with
    | name | infixOp | prefixOp | postfixOp | mixfix | bracket => cases plain
    | _ => trivial
  prefixed cites := cites
  infixed cites := cites

namespace Parser

variable {p q r : Parser} {o : Pending} {below rest : List Pending} {rule : Rule} {place : Nat}
  {ends : Nat → Bool} {token : Token} {span : Span} {t : Tree}

/-- A pending operator is a word of the source, or one of the parser's own; a line break has a place. -/
structure Sourced (text : String) (origin : Origin) (o : Pending) (_ : List Pending) : Prop where
  word : o.tag.WordOf text origin ∨ o.rule ∈ ownRules
  lineBreak : o.rule = Rule.newline → o.tag.WordOf text origin ∨ o.tag.BreakOf text origin
  missing : o.missingLeft = true → o.tag.WordOf text origin

theorem sourced_unmarked : Unmarked (Sourced text origin) where
  under sourced := ⟨sourced.word, sourced.lineBreak, sourced.missing⟩
  here _ sourced := ⟨sourced.word, sourced.lineBreak, sourced.missing⟩

theorem Sourced.ofWord (read : o.tag.WordOf text origin) : Sourced text origin o below :=
  ⟨.inl read, fun _ => .inl read, fun _ => read⟩

/-- An operator of the parser itself that is no line break. -/
theorem Sourced.own (rule : Rule) (own : rule ∈ ownRules ∧ rule ≠ Rule.newline) (same : o.rule = rule)
    (given : o.missingLeft = false) : Sourced text origin o below where
  word := .inr (same ▸ own.1)
  lineBreak lineBreak := absurd (same.symm.trans lineBreak) own.2
  missing missing := absurd (given.symm.trans missing) Bool.false_ne_true

/-- What the parser puts in itself is no part of a chain's end, and no tree is called by it. -/
theorem ownRules_silent (own : rule ∈ ownRules) : rule.prior = none ∧ rule.fixity ≠ .prefixOp ∧
    (rule.isOpener = false → rule.reduction.isCalled = false) ∧ rule.bracketKind ≠ some .user := by
  have silent : ∀ rule ∈ ownRules, rule.prior = none ∧ rule.fixity ≠ .prefixOp ∧
      (rule.isOpener = false → rule.reduction.isCalled = false) ∧ rule.bracketKind ≠ some .user := by
    decide +kernel
  exact silent rule own

/-- The trees that the parser holds are called by words of the source. -/
structure Cites (text : String) (origin : Origin) (p : Parser) : Prop
    extends Holding (Sourced text origin) (Tree.Cites text origin) p where
  speaks : Speaks p
  source : p.origin = origin

theorem Cites.sourced (cites : Cites text origin p) (inside : o ∈ p.pending) :
    ∃ rest, Sourced text origin o rest :=
  cites.pending.mem inside

theorem Cites.word (cites : Cites text origin p) (inside : o ∈ p.pending) (other : o.rule ∉ ownRules) :
    o.tag.WordOf text origin := by
  obtain ⟨_, sourced⟩ := cites.sourced inside
  exact sourced.word.resolve_right other

/-- Every part of a chain is a word or a line break, and the last one is a word. -/
theorem Cites.chain {links : List Pending} {lefts operands : List Tree} (cites : Cites text origin p)
    (here : p.pending = links ++ rest) (collects : Collects links lefts)
    (last : ∀ o ∈ links.head?, o.rule.prior.isSome = true ∧ o.rule.isOpener = false) :
    (Tree.mixfix (links.reverse.map Pending.tag) operands).Cites text origin := by
  have inside : ∀ o ∈ links, o ∈ p.pending := fun o member => here ▸ List.mem_append_left _ member
  have final : ∀ o ∈ links.head?, o.tag.WordOf text origin := by
    refine fun o found => cites.word (inside o (List.mem_of_mem_head? found)) fun own => ?_
    have continues := (last o found).1
    rw [(ownRules_silent own).1] at continues
    cases continues
  have operators := collects.operators (here ▸ cites.speaks.knows.stack) fun o found => (last o found).2
  have unspaced := collects.unspaced
    (fun o member => ⟨(cites.speaks.operator (inside o member)).1, (cites.speaks.operator (inside o member)).2.2⟩)
    fun o found => (final o found).unspaced
  have each : ∀ o ∈ links, o.tag.WordOf text origin ∨ o.tag.BreakOf text origin := by
    intro o member
    obtain ⟨_, sourced⟩ := cites.sourced (inside o member)
    rcases sourced.word with word | own
    · exact .inl word
    · refine sourced.lineBreak ?_
      have named := (cites.speaks.operator (inside o member)).1
      have opens := operators o member
      simp only [ownRules, List.mem_cons, List.not_mem_nil, or_false] at own
      rcases own with space | same | block | file
      · exact absurd (named ▸ unspaced o member) (by rw [space]; decide +kernel)
      · exact same
      · rw [block] at opens
        cases opens
      · rw [file] at opens
        cases opens
  refine ⟨fun tag member => ?_, ?_⟩
  · rw [List.map_reverse, List.mem_reverse, List.mem_map] at member
    obtain ⟨o, member, rfl⟩ := member
    exact each o member
  · cases links with
    | nil => cases collects
    | cons o links => exact ⟨o.tag, by simp, final o rfl⟩

theorem Cites.calls (cites : Cites text origin p) : Calls (Tree.Cites text origin) p where
  chain split collects lasts := cites.chain split collects lasts
  declares _ _ := trivial
  leads inside leads := cites.word inside fun own => (ownRules_silent own).2.1 leads
  infixed inside operator called := cites.word inside fun own => by
    rw [(ownRules_silent own).2.2.1 operator] at called
    cases called
  value {o below} here missing := by
    obtain ⟨_, sourced⟩ := cites.sourced (here ▸ List.mem_cons_self .. : o ∈ p.pending)
    exact sourced.missing missing

theorem Cites.edit (cites : Cites text origin p) (edit : Edit p q) : Cites text origin q where
  toHolding :=
    cites.toHolding.edit sourced_unmarked Tree.cites_ofCalls cites.calls cites.speaks.knows.stack edit
  speaks := cites.speaks.edit edit
  source := edit.frame.2.2.trans cites.source

theorem Cites.edits (cites : Cites text origin p) (edits : Relation.ReflTransGen Edit p q) : Cites text origin q :=
  edits_keep (fun edit cites => Cites.edit cites edit) edits cites

/-- A new operator takes the operand read last to its left. -/
theorem Cites.adds (cites : Cites text origin p) (speaks : Speaks q) (source : q.origin = p.origin)
    (pending : q.pending = o :: p.pending) (left : o.left = p.operand) (empty : q.operand = none)
    (sourced : Sourced text origin o p.pending) : Cites text origin q :=
  ⟨cites.toHolding.adds pending left empty sourced, speaks, source.trans cites.source⟩

theorem Cites.room (cites : Cites text origin p) (room : Room p place r) : Cites text origin r := by
  have speaks := cites.speaks.room room
  cases room with
  | empty => exact cites
  | juxtaposed _ ready =>
    exact (cites.edits ready.edits).adds speaks rfl rfl rfl rfl (.own Rule.space (by decide +kernel) rfl rfl)

/-- A new operand. -/
theorem Cites.put (cites : Cites text origin p) (speaks : Speaks { p with operand := some t })
    (each : t.Each (Tree.Cites text origin)) : Cites text origin { p with operand := some t } :=
  ⟨cites.toHolding.put rfl rfl each, speaks, cites.source⟩

/-- A bracket that the source has declared is called by its two words. -/
theorem Cites.bracket {opener : Pending} {closing : Tag} {registry : Registry} {layout : List Layout}
    (cites : Cites text origin p) (speaks : Speaks { p with registry, layout, operand := some t, pending := below })
    (here : p.pending = opener :: below)
    (word : opener.rule.bracketKind = some .user → closing.WordOf text origin)
    (tree : Tree.ofBracket (opener.rule.bracketKind.getD .paren) opener.tag closing p.operand
      opener.sectioned = .ok t) :
    Cites text origin { p with registry, layout, operand := some t, pending := below } := by
  have user : opener.rule.bracketKind.getD .paren = .user → opener.rule.bracketKind = some .user := by
    cases opener.rule.bracketKind with
    | none => exact BracketKind.noConfusion
    | some kind => exact congrArg some
  have called : opener.rule.bracketKind.getD .paren = .user → ∀ inner,
      (Tree.bracket opener.tag closing inner).Cites text origin := fun kind _ =>
    ⟨cites.word (here ▸ List.mem_cons_self ..) fun own => (ownRules_silent own).2.2.2 (user kind), word (user kind)⟩
  have each := Tree.cites_ofCalls.each_ofBracket cites.operand called tree
  exact ⟨cites.toHolding.close here rfl rfl each, speaks, cites.source⟩

theorem Cites.dedents (cites : Cites text origin p) (dedents : Dedents ends p q) : Cites text origin q := by
  induction dedents with
  | stop => exact cites
  | step _ _ closes _ ih =>
    obtain ⟨edits, here, opens, block, tree⟩ := closes
    have cites := cites.edits edits
    refine ih (cites.bracket (cites.speaks.bracket here opens (fun user => ?_) tree) here (fun user => ?_) tree)
    all_goals cases block.symm.trans user

theorem Cites.shift (cites : Cites text origin p) (inside : .ok ⟨token, span⟩ ∈ lexemes text)
    (ok : p.shift token span = .ok q) : Cites text origin q := by
  have named : ∀ word ∈ token.symbol, (p.tag word span).WordOf text origin := fun word symbol =>
    ⟨cites.source, _, inside, symbol, rfl⟩
  have speaks := cites.speaks.shift (fun word symbol => lexemes_unspaced inside symbol) ok
  have shifts := shift_ok ok
  cases shifts with
  | eof | inside | continues => exact cites
  | first => exact ⟨⟨cites.pending, cites.trees⟩, speaks, cites.source⟩
  | literal literal room =>
    refine (cites.room room).put speaks ?_
    cases token <;> cases literal <;> exact Tree.each_alone trivial rfl
  | name word _ room => exact (cites.room room).put speaks (Tree.each_alone (named _ word) rfl)
  | opening acts _ room | leading acts _ room =>
    exact (cites.room room).adds speaks rfl rfl rfl rfl (.ofWord (named _ acts.word))
  | closing acts closes =>
    obtain ⟨r, opener, below, t, edits, here, opens, tree, rfl⟩ := closing_ok acts closes ok
    exact (cites.edits edits).bracket speaks here (fun _ => named _ acts.word) tree
  | headless acts empty => exact cites.adds speaks rfl rfl empty.symm empty (.ofWord (named _ acts.word))
  | infixed acts _ _ ready =>
    exact (cites.edits ready.edits).adds speaks rfl rfl rfl rfl (.ofWord (named _ acts.word))
  | postfixed acts _ _ ready operand =>
    have cites := cites.edits ready.edits
    refine cites.put speaks (Tree.each_iff.2 ⟨named _ acts.word, fun child inside => ?_⟩)
    exact List.mem_singleton.1 inside ▸ cites.operand _ operand
  | indents =>
    exact cites.adds speaks rfl rfl rfl rfl (.own blockRule (by decide +kernel) rfl rfl)
  | @separates width r _ _ dedents _ _ ready =>
    have reached := cites.dedents dedents
    have lineBreak : (r.tag "newline" span).BreakOf text origin := ⟨reached.source, _, inside⟩
    refine (reached.edits ready.edits).adds speaks rfl rfl rfl rfl ⟨.inr ?_, fun _ => .inr lineBreak, nofun⟩
    simp [Pending.leading, ownRules]
  | aligns _ dedents => exact cites.dedents dedents

theorem cites_start : Cites text origin (.start .default origin) where
  toHolding := .start rfl rfl rfl (.own fileRule (by decide +kernel) rfl rfl)
  speaks := speaks_start origin
  source := rfl

theorem Cites.taking {xs : List Lexeme} (cites : Cites text origin p) (inside : ∀ x ∈ xs, .ok x ∈ lexemes text)
    (ok : p.taking xs = .ok q) : Cites text origin q := by
  induction xs generalizing p with
  | nil =>
    cases ok
    exact cites
  | cons x xs ih =>
    obtain ⟨r, shifted, ok⟩ := bind_ok ok
    rw [List.forall_mem_cons] at inside
    exact ih (cites.shift inside.1 shifted) inside.2 ok

/-- Every name, operator and bracket in the tree of a source is a word of it, with its place. -/
theorem cites_of_parse (parsed : parseUnder .default origin text = .ok (t, q)) : t.Each (Tree.Cites text origin) := by
  obtain ⟨xs, p, front, taken, finishes⟩ := run_taking parsed
  have inside : ∀ x ∈ xs, .ok x ∈ lexemes text := fun x member => front.subset (List.mem_map_of_mem member)
  have cites := cites_start.taking inside taken
  obtain ⟨dedents, edits, -, -, -, tree⟩ := finishes
  have cites := (cites.dedents dedents).edits edits
  exact Tree.cites_ofCalls.each_ofBracket cites.operand BracketKind.noConfusion tree

end Parser

end MixfixLambda
