import MixfixLambda.Proofs.Parse.Scopes
import MixfixLambda.Proofs.Token.Lexical

/-!
# A source leaves the rules as they were

The rules that a bracket or a block declares vanish with its scope. What a source adds to the rules for
good are the symbols of declarations whose keyword was read where nothing but the file was open.
-/
namespace MixfixLambda

theorem lexemes_worded {text : String} {x : Lexeme} (inside : .ok x ∈ lexemes text) :
    x.token.symbol ≠ some "" :=
  (Lexer.lexemes_lexical inside).worded

namespace Parser

variable {p q r : Parser} {start : Registry} {K : Tag → DeclarationKind → Prop} {rule : Rule} {tag : Tag}
  {place : Nat} {C : Pending → Prop} {ends : Nat → Bool} {token : Token} {span : Span}

/-- A declaration that waits outside of all inner brackets has such a keyword. -/
def Keyword (K : Tag → DeclarationKind → Prop) (o : Pending) (below : List Pending) : Prop :=
  o.rule.fixity = .prefixOp → ∀ kind, o.rule.reduction = .declare kind → opened below = [fileRule] → K o.tag kind

theorem keyword_unmarked : Unmarked (Keyword K) where
  under keyword leads kind declares outside := keyword leads kind declares (by rwa [opened_markSection] at outside)
  here _ keyword := keyword

/-- A symbol of a declaration with such a keyword that is in the trees. -/
def DeclaredBy (K : Tag → DeclarationKind → Prop) (p : Parser) (symbol : String) : Prop :=
  ∃ d, p.Declared d ∧ (∃ tag kind operand, K tag kind ∧ Declaration.ofOperand kind tag operand = .ok d) ∧
    symbol ∈ d.symbols.map Tag.text

/-- What the rules are compared with those at the start. -/
structure History (start : Registry) (K : Tag → DeclarationKind → Prop) (p : Parser) : Prop where
  older : ∀ e ∈ start.entries, e.scope ≤ start.scope
  scopes : Scoped start.depth p
  since : Registry.Since start p.registry (DeclaredBy K p)
  keywords : Stackwise (Keyword K) p.pending

theorem DeclaredBy.mono (keeps : ∀ d, p.Declared d → q.Declared d) {symbol : String}
    (declared : DeclaredBy K p symbol) : DeclaredBy K q symbol :=
  let ⟨d, here, keyword, inside⟩ := declared
  ⟨d, keeps d here, keyword, inside⟩

/-- The innermost scope is the one at the start if and only if nothing but the file is open. -/
theorem History.scope (h : History start K p) :
    p.registry.scope + 1 = start.scope + (opened p.pending).length := by
  have depth := h.scopes.step.depth
  unfold Registry.depth at depth
  omega

theorem History.outside (h : History start K p) (same : p.registry.scope = start.scope) :
    opened p.pending = [fileRule] := by
  have scope := h.scope
  obtain ⟨inner, file, -⟩ := h.scopes.step.file
  have length := congrArg List.length file
  simp only [List.length_append, List.length_singleton] at length
  have none : inner = [] := List.length_eq_zero_iff.1 (by omega)
  rw [file, none, List.nil_append]

theorem History.inside (h : History start K p) : start.scope ≤ p.registry.scope := by
  have scope := h.scope
  have some := List.length_pos_iff.2 h.scopes.opened_ne_nil
  omega

theorem History.edit (h : History start K p) (edit : Edit p q) : History start K q := by
  have scopes := h.scopes.edit edit
  have keeps : ∀ d, p.Declared d → q.Declared d := fun d declared => declared.edits h.scopes.stack (.single edit)
  have since := h.since.mono fun _ => DeclaredBy.mono keeps
  refine ⟨h.older, scopes, ?_, edit.stackwise keyword_unmarked h.keywords⟩
  rcases edit.registry with
    same | ⟨top, below, right, kind, d, here, -, leads, declares, read, made, -, scope, entries, -⟩
  · rwa [same]
  · refine since.register (d.rules.map Prod.snd) h.inside scope ?_ fun same rule inside => ?_
    · rw [entries, List.map_map]
      rfl
    · have outside := h.outside same
      have keywords := h.keywords
      rw [here] at outside keywords
      rw [opened_operator (not_opener (by rw [leads]; exact Fixity.noConfusion))] at outside
      obtain ⟨⟨symbol, rule'⟩, member, rfl⟩ := List.mem_map.1 inside
      obtain ⟨listed, named, -⟩ := Declaration.mem_rules member
      exact ⟨d, .inl ⟨_, made, .root⟩, ⟨_, _, right, keywords.head leads kind declares outside, read⟩,
        List.mem_map.2 ⟨symbol, listed, named.symm⟩⟩

theorem History.edits (h : History start K p) (edits : Relation.ReflTransGen Edit p q) : History start K q :=
  edits_keep (fun edit h => History.edit h edit) edits h

/-- What does not touch the rules or the operators that wait. -/
theorem History.congr (h : History start K p) (scopes : Scoped start.depth q)
    (keeps : ∀ d, p.Declared d → q.Declared d) (registry : q.registry = p.registry)
    (keywords : Stackwise (Keyword K) q.pending) : History start K q :=
  ⟨h.older, scopes, registry ▸ h.since.mono fun _ => DeclaredBy.mono keeps, keywords⟩

theorem History.push (h : History start K p) (scopes : Scoped start.depth (p.push rule tag))
    (keyword : Keyword K (Pending.leading rule tag) p.pending) : History start K (p.push rule tag) :=
  h.congr scopes (fun _ => Declared.push) rfl (.cons keyword h.keywords)

/-- No declaration is led by an operator behind an operand. -/
theorem keyword_of_fixity {below : List Pending} {o : Pending} (fixity : o.rule.fixity ≠ .prefixOp) :
    Keyword K o below :=
  fun leads => absurd leads fixity

theorem History.behind (h : History start K p) (behind : p.operand.isSome = true) (ready : Ready p rule r)
    (between : rule.fixity = .infixOp) : History start K (r.push rule tag) :=
  (h.edits ready.edits).push (h.scopes.behind behind ready between)
    (keyword_of_fixity (by simp [Pending.leading, between]))

theorem History.room (h : History start K p) (room : Room p place r) : History start K r := by
  cases room with
  | empty => exact h
  | juxtaposed behind ready => exact h.behind behind ready rfl

theorem History.closes (h : History start K p) (closes : Closes C p q) (inside : ∀ o, C o → o.rule ≠ fileRule) :
    History start K q := by
  have scopes := h.scopes.closes closes inside
  have depth := scopes.step.depth
  have some := List.length_pos_iff.2 scopes.opened_ne_nil
  obtain @⟨r, opener, below, closing, t, edits, here, opens, partner, tree⟩ := closes
  have h' := h.edits edits
  have scope := h'.scope
  have keywords := h'.keywords
  rw [here] at keywords scope
  rw [opened_opener opens, List.length_cons] at scope
  have inner : start.scope < r.registry.scope := by
    change 0 < (opened below).length at some
    omega
  refine ⟨h.older, scopes, ?_, keywords.tail⟩
  refine (h'.since.popScope h.older inner).mono fun _ => DeclaredBy.mono fun d declared => ?_
  exact declared.closes h'.scopes.stack (.intro (C := C) .refl here opens partner tree)

theorem History.dedents (h : History start K p) (dedents : Dedents ends p q) : History start K q := by
  induction dedents with
  | stop => exact h
  | step _ _ closes _ ih =>
    refine ih (h.closes closes fun o block file => ?_)
    rw [file] at block
    cases block

/-- A token adds a keyword at most. -/
theorem History.shifts (h : History start K p) (worded : token.symbol ≠ some "")
    (keyword : ∀ text e kind, Acts p token text e → e.rule.reduction = .declare kind →
      opened p.pending = [fileRule] → K (p.tag text span) kind)
    (shifts : Shifts p span token q) : History start K q := by
  have scopes := h.scopes.shifts worded shifts
  have keeps : ∀ d, p.Declared d → q.Declared d := fun d declared => declared.shifts h.scopes.stack shifts
  cases shifts with
  | eof | inside | continues => exact h
  | literal _ room | name _ _ room =>
    have h' := h.room room
    exact h'.congr scopes (fun d declared => declared.operand room.empties _) rfl h'.keywords
  | opening _ opens room =>
    have h' := h.room room
    refine ⟨h.older, scopes, h'.since.pushScope.mono fun _ => DeclaredBy.mono fun d => Declared.push,
      .cons (keyword_of_fixity ?_) h'.keywords⟩
    simp [Pending.leading, opens]
  | leading acts _ room =>
    refine (h.room room).push scopes fun _ kind declares outside => ?_
    rw [h.scopes.brackets_room opened_ofBrackets room] at outside
    exact keyword _ _ kind acts declares outside
  | closing acts _ closes =>
    refine h.closes closes fun o partner file => worded ?_
    rw [file] at partner
    rw [acts.word, ← (Registry.mem_of_find? acts.found).2]
    exact partner.symm
  | headless _ _ sections =>
    refine h.congr scopes keeps rfl (.cons (keyword_of_fixity ?_) h.keywords)
    simp [Pending.leading, (sectionable_facts sections).1]
  | infixed _ between behind ready => exact h.behind behind ready between
  | postfixed _ _ _ ready operand =>
    have h' := h.edits ready.edits
    exact h'.congr scopes (fun d declared => declared.postfixed operand) rfl h'.keywords
  | first outside unstarted => exact h.congr scopes keeps rfl h.keywords
  | indents outside started deeper even empty =>
    exact ⟨h.older, scopes, h.since.pushScope.mono fun _ => DeclaredBy.mono fun d => Declared.push,
      .cons (keyword_of_fixity Fixity.noConfusion) h.keywords⟩
  | aligns _ dedents => exact h.dedents dedents
  | separates _ dedents _ behind ready => exact (h.dedents dedents).behind behind ready rfl

/-- A keyword that is read where nothing but the file is open. -/
def ReadOutside (registry : Registry) (origin : Origin) (stream : List (Except LexicalError Lexeme)) (keyword : Tag)
    (kind : DeclarationKind) : Prop :=
  ∃ before x text e p, (before ++ [x]).map .ok <+: stream ∧ (Parser.start registry origin).taking before = .ok p ∧
    opened p.pending = [fileRule] ∧ Acts p x.token text e ∧ e.rule.reduction = .declare kind ∧
    keyword = p.tag text x.span

/-- A symbol of a declaration of the tree whose keyword is read outside of all brackets and blocks. -/
def DeclaredOutside (registry : Registry) (origin : Origin) (stream : List (Except LexicalError Lexeme)) (t : Tree)
    (symbol : String) : Prop :=
  ∃ d keyword kind operand, ReadOutside registry origin stream keyword kind ∧
    Declaration.ofOperand kind keyword operand = .ok d ∧ Tree.Part (.declaration d) t ∧
    symbol ∈ d.symbols.map Tag.text

variable {registry : Registry} {origin : Origin} {stream : List (Except LexicalError Lexeme)}

theorem taking_history {before xs : List Lexeme} (front : (before ++ xs).map .ok <+: stream)
    (worded : ∀ x ∈ xs, x.token.symbol ≠ some "") (here : (Parser.start registry origin).taking before = .ok p)
    (h : History registry (ReadOutside registry origin stream) p) (ok : p.taking xs = .ok q) :
    History registry (ReadOutside registry origin stream) q := by
  induction xs generalizing before p with
  | nil =>
    cases ok
    exact h
  | cons x xs ih =>
    obtain ⟨r, shifted, ok⟩ := bind_ok ok
    rw [List.forall_mem_cons] at worded
    rw [List.append_cons] at front
    have read : (before ++ [x]).map .ok <+: stream :=
      (List.IsPrefix.map _ (List.prefix_append (before ++ [x]) xs)).trans front
    refine ih front worded.2 (taking_snoc here shifted) (h.shifts worded.1 ?_ (shift_ok shifted)) ok
    intro text e kind acts declares outside
    exact ⟨before, x, text, e, p, read, here, outside, acts, declares, rfl⟩

/-- At the end of a source nothing but the file is left, and the tree holds what was declared. -/
theorem History.finishes {K : Tag → DeclarationKind → Prop} {t : Tree} (h : History registry K p)
    (finishes : Finishes p (t, q)) : q.registry.scope = registry.scope ∧
      Registry.Since registry q.registry fun symbol => ∃ d, Tree.Part (.declaration d) t ∧
        (∃ tag kind operand, K tag kind ∧ Declaration.ofOperand kind tag operand = .ok d) ∧
        symbol ∈ d.symbols.map Tag.text := by
  obtain @⟨r, s, opener, below, closing, t, dedents, edits, here, opens, file, tree⟩ := finishes
  have h' := (h.dedents dedents).edits edits
  have scope := h'.scope
  obtain ⟨-, bottom⟩ := h'.scopes.file here opens file
  refine ⟨?_, h'.since.mono fun symbol => ?_⟩
  · rw [here, opened_opener opens, bottom] at scope
    change s.registry.scope = registry.scope
    simpa using scope
  · rintro ⟨d, declared, keyword, inside⟩
    exact ⟨d, (Tree.part_ofBracket rfl tree).2 (h'.scopes.content here opens file declared), keyword, inside⟩

/-- Between two tokens the open brackets, the scopes and the layout are in step, and an accepted source leaves
the rules as they were but for what it declares outside of brackets and blocks, provided that no bracket
of the registry is of the parser's own kinds and no word is empty. -/
theorem run_restores (built : registry.Built) (written : ∀ e ∈ registry.entries, e.rule.Written) :
    (∀ xs p, (∀ x ∈ xs, x.token.symbol ≠ some "") → (Parser.start registry origin).taking xs = .ok p →
        InStep registry.depth p) ∧
      ∀ stream t q, (∀ x, .ok x ∈ stream → x.token.symbol ≠ some "") →
        (Parser.start registry origin).run stream = .ok (t, q) →
        q.registry.depth = registry.depth ∧ ∀ symbol,
          q.registry.lookup symbol = registry.lookup symbol ∨ DeclaredOutside registry origin stream t symbol := by
  have scopes := scoped_start written origin
  refine ⟨fun xs p worded ok => (taking_scoped scopes worded ok).step, fun stream t q worded ok => ?_⟩
  obtain ⟨xs, p, front, taken, finishes⟩ := run_taking ok
  have h : History registry (ReadOutside registry origin stream) (.start registry origin) :=
    ⟨built.older, scopes, Registry.since_self registry, .cons (fun leads => by cases leads) .nil⟩
  have words : ∀ x ∈ xs, x.token.symbol ≠ some "" := fun x inside =>
    worded x (front.subset (List.mem_map_of_mem inside))
  have whole : ([] ++ xs).map .ok <+: stream := front
  obtain ⟨scope, since⟩ := (taking_history whole words rfl h taken).finishes finishes
  refine ⟨congrArg (· + 1) scope, fun symbol => (since.lookup scope symbol).imp_right ?_⟩
  rintro ⟨d, part, ⟨tag, kind, operand, outside, read⟩, inside⟩
  exact ⟨d, tag, kind, operand, outside, read, part, inside⟩

theorem run_restores_declarations : ∃ t q,
    parseUnder .default .module "infixl 60 plus\n(infixr 70 plus; a plus b)" = .ok (t, q) ∧
      q.registry.depth = Registry.default.depth ∧ ∀ symbol,
        q.registry.lookup symbol = Registry.default.lookup symbol ∨
          DeclaredOutside .default .module (lexemes "infixl 60 plus\n(infixr 70 plus; a plus b)") t symbol := by
  have accepted :
      (parseUnder .default .module "infixl 60 plus\n(infixr 70 plus; a plus b)").toOption.isSome = true := by
    decide +kernel
  obtain ⟨result, parsed⟩ := exists_ok accepted
  have whole := (run_restores Registry.Built.default default_written).2 _ result.1 result.2
    (fun x inside => lexemes_worded inside) parsed
  exact ⟨result.1, result.2, parsed, whole⟩

/-- A layout with more or fewer entries than there are open brackets is out of step, and so is a parser that
has closed the file. -/
theorem not_inStep {xs : List Lexeme} {depth : Nat}
    (differ : ((Parser.start registry origin).taking xs).toOption.any (fun p =>
      p.layout.length != (opened p.pending).length || (opened p.pending).isEmpty) = true) :
    ∃ p, (Parser.start registry origin).taking xs = .ok p ∧ ¬InStep depth p := by
  obtain ⟨p, taken, differ⟩ := exists_ok_of_any differ
  refine ⟨p, taken, fun step => ?_⟩
  simp only [Bool.or_eq_true, bne_iff_ne, List.isEmpty_iff] at differ
  rcases differ with differ | none
  · exact differ step.layout.length_eq
  · obtain ⟨inner, file, -⟩ := step.file
    rw [none] at file
    exact absurd file.symm (List.append_ne_nil_of_right_ne_nil _ (List.cons_ne_nil _ _))

/-- Brackets of the parser's own kinds, brackets that vanish as separators, and empty words, which close the
file, put the scopes and the layout out of step. -/
theorem run_restores_own_brackets :
    (∃ t q, parseUnder (Registry.default.registerAll [.opening "begin" "end" .file, .closing "end" "begin" .file])
        .module "begin x" = .ok (t, q) ∧ q.registry.depth ≠ Registry.default.depth) ∧
      (∃ p, (Parser.start (Registry.default.registerAll [.opening "begin" "end" .block, .closing "end" "begin" .block])
        .module).taking [⟨.name "begin", ⟨0, 5⟩⟩] = .ok p ∧ ¬InStep Registry.default.depth p) ∧
      (∃ p, (Parser.start (Registry.default.registerAll [⟨"gap", 0, 0, .opening, .none, none, .sequence, none⟩])
        .module).taking [⟨.operator "(", ⟨0, 1⟩⟩, ⟨.name "gap", ⟨1, 4⟩⟩, ⟨.operator ")", ⟨4, 5⟩⟩] = .ok p ∧
          ¬InStep Registry.default.depth p) ∧
      ∃ p, (Parser.start (Registry.default.registerAll [.closing "" "" .paren]) .module).taking
        [⟨.name "", ⟨0, 0⟩⟩] = .ok p ∧ ¬InStep Registry.default.depth p := by
  refine ⟨?_, not_inStep (by decide +kernel), not_inStep (by decide +kernel), not_inStep (by decide +kernel)⟩
  have deeper : (parseUnder (Registry.default.registerAll
      [.opening "begin" "end" .file, .closing "end" "begin" .file]) .module "begin x").toOption.any (fun result =>
        result.2.registry.depth != Registry.default.depth) = true := by
    decide +kernel
  obtain ⟨result, parsed, deeper⟩ := exists_ok_of_any deeper
  exact ⟨result.1, result.2, parsed, bne_iff_ne.1 deeper⟩

end Parser

end MixfixLambda
