import MixfixLambda.Proofs.Parse.Commas

/-!
# Commas that are read outside of brackets

A comma that is read in a block or in the file stays in sight: it waits there, or it has listed items that are a
child of a tree. Where these items come out as the whole of the lines, they are refused.
-/
namespace MixfixLambda

namespace Tree

/-- Words are no commas, and hold none. -/
theorem not_stray_words {t : Tree} (words : ∀ word ∈ t.spine.1 :: t.spine.2, word.IsBare) :
    t.isComma = false ∧ ¬t.Stray := by
  have leaf : ∀ {word : Tree}, word.IsBare → word.isComma = false ∧ ¬word.Stray := by
    rintro _ (⟨value, span, rfl⟩ | ⟨tag, rfl⟩) <;> exact ⟨rfl, not_stray_alone rfl nofun⟩
  have general : ∀ (t : Tree) (arguments : List Tree),
      (∀ word ∈ (spine.go t arguments).1 :: (spine.go t arguments).2, word.IsBare) →
        (∀ word ∈ arguments, word.IsBare) ∧ t.isComma = false ∧ ¬t.Stray := by
    intro t arguments words
    fun_induction spine.go t arguments with
    | case1 arguments function argument span ih =>
      obtain ⟨each, plain, free⟩ := ih words
      rw [List.forall_mem_cons] at each
      obtain ⟨plain', free'⟩ := leaf each.1
      refine ⟨each.2, rfl, ?_⟩
      rintro (⟨inside, comma⟩ | - | ⟨inside, stray⟩)
      · simp only [children, List.mem_cons, List.not_mem_nil, or_false] at inside
        rcases inside with rfl | rfl
        · exact Bool.eq_false_iff.1 plain comma
        · exact Bool.eq_false_iff.1 plain' comma
      · simp only [children, List.mem_cons, List.not_mem_nil, or_false] at inside
        rcases inside with rfl | rfl
        · exact free stray
        · exact free' stray
    | case2 =>
      rw [List.forall_mem_cons] at words
      exact ⟨words.2, leaf words.1⟩
  exact (general t [] words).2

end Tree

namespace Parser

variable {p q r : Parser} {o top : Pending} {above below rest : List Pending} {rule : Rule} {tag : Tag} {place : Nat}
  {C : Pending → Prop} {ends : Nat → Bool} {token : Token} {span : Span} {t right : Tree} {text : String}
  {e : Registration} {depth : Nat} {D : Declaration → Prop}

/-- The innermost bracket is a block or the file. -/
def inLines (pending : List Pending) : Bool :=
  (innermost pending).any fun (rule, _) => rule.bracketKind == some .block || rule.bracketKind == some .file

theorem inLines_ofBrackets : OfBrackets inLines where
  operator operator := by rw [inLines, innermost_ofBrackets.operator operator, inLines]
  marked pending := by rw [inLines, innermost_ofBrackets.marked, inLines]

/-- An operator holds a comma that was read in lines. -/
def Hangs (o : Pending) (below : List Pending) : Prop :=
  inLines below = true ∧ (o.rule.reduction = .comma ∨ ∃ t ∈ o.left, t.isComma = true) ∨ ∃ t ∈ o.left, t.Stray

/-- One of the operators that wait has the property. -/
inductive Somewhere (P : Pending → List Pending → Prop) : List Pending → Prop
  | here {o : Pending} {below : List Pending} (holds : P o below) : Somewhere P (o :: below)
  | under {o : Pending} {below : List Pending} (rest : Somewhere P below) : Somewhere P (o :: below)

theorem hangs_unmarked : Unmarked Hangs where
  under hangs := by rwa [Hangs, inLines_ofBrackets.marked]
  here _ hangs := hangs

theorem Somewhere.markSection {P : Pending → List Pending → Prop} (unmarked : Unmarked P) (found : Somewhere P below) :
    Somewhere P (markSection below) := by
  induction found with
  | here holds =>
    unfold Parser.markSection
    split
    · next opens => exact .here (unmarked.here opens holds)
    · exact .here (unmarked.under holds)
  | under rest ih =>
    unfold Parser.markSection
    split
    · exact .under rest
    · exact .under ih

theorem Somewhere.split {P : Pending → List Pending → Prop} (found : Somewhere P (above ++ below)) :
    (∃ o ∈ above, ∃ rest, P o rest) ∨ Somewhere P below := by
  induction above with
  | nil => exact .inr found
  | cons o above ih =>
    cases found with
    | here holds => exact .inl ⟨o, List.mem_cons_self .., _, holds⟩
    | under rest =>
      exact (ih rest).imp_left fun ⟨x, inside, holds⟩ => ⟨x, List.mem_cons_of_mem _ inside, holds⟩

/-- A comma that was read in lines is in sight. -/
def Remains (p : Parser) : Prop :=
  Somewhere Hangs p.pending ∨ ∃ t ∈ p.operand, t.Stray ∨ t.isComma = true ∧ inLines p.pending = true

theorem Collects.left {links : List Pending} {lefts : List Tree} (collects : Collects links lefts)
    (stack : Stacked (links ++ rest)) (inside : o ∈ links) (held : t ∈ o.left) : t ∈ lefts := by
  induction collects with
  | first _ leads =>
    cases List.mem_singleton.1 inside
    rw [stack.head.none (.inl leads)] at held
    cases held
  | infixed _ _ operand =>
    cases List.mem_singleton.1 inside
    cases operand.symm.trans held
    exact List.mem_singleton_self _
  | next _ operand _ _ ih =>
    rw [List.mem_append]
    rcases List.mem_cons.1 inside with rfl | inside
    · cases operand.symm.trans held
      exact .inr (List.mem_singleton_self _)
    · exact .inl (ih stack.tail inside)

/-- A chain shows the commas that its parts hold, and those that are its parts. -/
theorem Collects.stray {links : List Pending} {lefts : List Tree} (collects : Collects links lefts)
    (stack : Stacked (links ++ rest)) (known : Stackwise (KnownOp D) (links ++ rest)) (inside : o ∈ links)
    (hangs : Hangs o below) :
    (Tree.mixfix (links.reverse.map Pending.tag) (lefts ++ [right])).Stray := by
  have child : ∀ t ∈ o.left, t ∈ (Tree.mixfix (links.reverse.map Pending.tag) (lefts ++ [right])).children :=
    fun t held => List.mem_append_left _ (collects.left stack inside held)
  rcases hangs with ⟨-, comma | ⟨t, held, comma⟩⟩ | ⟨t, held, stray⟩
  · obtain ⟨_, named, known⟩ := known.mem (List.mem_append_left _ inside)
    exact .part ⟨o.tag, List.mem_map_of_mem (List.mem_reverse.2 inside), named.trans ((regular known).comma comma)⟩
  · exact .items (child t held) comma rfl
  · exact .under (child t held) stray

/-- A reduction keeps a comma in sight. -/
theorem Reduct.remains (reduct : Reduct p top below right q) (stack : Stacked (top :: below))
    (known : Stackwise (KnownOp D) (top :: below)) (operator : top.rule.isOpener = false)
    (remains : Somewhere Hangs (top :: below) ∨ right.Stray ∨ right.isComma = true ∧ inLines (top :: below) = true) :
    Remains q := by
  have regular := regular known.head.2
  rw [inLines_ofBrackets.operator operator] at remains
  have root : ∀ {left : Tree}, top.rule.reduction = .comma →
      (Tree.ofInfix top.rule.reduction top.tag left right).isComma = true := by
    intro left comma
    rw [comma]
    rfl
  -- A prefix operator holds nothing, so that the comma is in its operand or further down.
  have leading : top.rule.fixity = .prefixOp → ¬Hangs top below := by
    rintro leads (⟨-, comma | ⟨t, held, -⟩⟩ | ⟨t, held, -⟩)
    · cases leads.symm.trans (regular.separates (.inr comma)).1
    all_goals
      rw [stack.head.none (.inl (by simp [leads]))] at held
      cases held
  cases reduct with
  | @chain links rest lefts continues split collects =>
    rw [split] at stack known remains
    rcases remains with found | stray | ⟨comma, -⟩
    · rcases found.split with ⟨o, inside, _, hangs⟩ | found
      · exact .inr ⟨_, rfl, .inl (collects.stray stack known inside hangs)⟩
      · exact .inl found
    · exact .inr ⟨_, rfl, .inl (.under (List.mem_append_right _ (List.mem_singleton_self _)) stray)⟩
    · exact .inr ⟨_, rfl, .inl (.items (List.mem_append_right _ (List.mem_singleton_self _)) comma rfl)⟩
  | erase _ leads =>
    rcases remains with (hangs | found) | stray
    · exact absurd hangs (leading leads)
    · exact .inl found
    · exact .inr ⟨_, rfl, stray⟩
  | declare _ leads _ read =>
    obtain ⟨plain, free⟩ := Tree.not_stray_words (Declaration.ofOperand_words read)
    rcases remains with (hangs | found) | stray | ⟨comma, -⟩
    · exact absurd hangs (leading leads)
    · exact .inl found
    · exact absurd stray free
    · exact absurd comma (Bool.eq_false_iff.1 plain)
  | leading _ leads =>
    rcases remains with (hangs | found) | stray | ⟨comma, -⟩
    · exact absurd hangs (leading leads)
    · exact .inl found
    · exact .inr ⟨_, rfl, .inl (.under (List.mem_singleton_self _) stray)⟩
    · exact .inr ⟨_, rfl, .inl (.items (List.mem_singleton_self _) comma rfl)⟩
  | headless _ _ missing =>
    rcases remains with (hangs | found) | stray | ⟨comma, lines⟩
    · rcases hangs with ⟨lines, comma | ⟨t, held, -⟩⟩ | ⟨t, held, -⟩
      · exact .inr ⟨_, rfl, .inr ⟨root comma, (inLines_ofBrackets.marked _).trans lines⟩⟩
      all_goals
        rw [stack.head.none (.inr missing)] at held
        cases held
    · exact .inl (found.markSection hangs_unmarked)
    · exact .inr ⟨_, rfl, .inl (Tree.stray_ofInfix.1 (.inr (.inr stray)))⟩
    · refine .inr ⟨_, rfl, (Tree.stray_ofInfix.2 comma).imp_right fun root => ⟨root, ?_⟩⟩
      exact (inLines_ofBrackets.marked _).trans lines
  | infixed _ _ _ operand =>
    rcases remains with (hangs | found) | stray | ⟨comma, lines⟩
    · rcases hangs with ⟨lines, comma | ⟨t, held, comma⟩⟩ | ⟨t, held, stray⟩
      · exact .inr ⟨_, rfl, .inr ⟨root comma, lines⟩⟩
      · cases operand.symm.trans held
        exact .inr ⟨_, rfl, .inl (Tree.stray_ofInfix.1 (.inl comma))⟩
      · cases operand.symm.trans held
        exact .inr ⟨_, rfl, .inl (Tree.stray_ofInfix.1 (.inr (.inl stray)))⟩
    · exact .inl found
    · exact .inr ⟨_, rfl, .inl (Tree.stray_ofInfix.1 (.inr (.inr stray)))⟩
    · exact .inr ⟨_, rfl, (Tree.stray_ofInfix.2 comma).imp_right fun root => ⟨root, lines⟩⟩

theorem Remains.edit (remains : Remains p) (tidy : Tidy p) (edit : Edit p q) : Remains q := by
  have stack := tidy.knows.stack
  have known := tidy.knows.pending
  have apart := tidy.pending
  unfold Remains at remains
  cases edit with
  | reduce here operand operator reduct =>
    rw [here] at stack known remains
    refine reduct.remains stack known operator (remains.imp_right fun ⟨t, same, found⟩ => ?_)
    cases operand.symm.trans same
    exact found
  | @separator top below here empty separates =>
    rw [here] at remains known
    rw [empty] at remains
    rcases remains.resolve_right (by simp) with (⟨lines, comma | ⟨t, held, comma⟩⟩ | ⟨t, held, stray⟩) | found
    · rw [Rule.isSeparator, comma] at separates
      cases separates
    · exact .inr ⟨t, held, .inr ⟨comma, lines⟩⟩
    · exact .inr ⟨t, held, .inl stray⟩
    · exact .inl found
  | operator here empty _ missing =>
    rw [here] at remains stack apart
    rw [empty] at remains
    rcases remains.resolve_right (by simp) with (⟨-, comma | ⟨t, held, -⟩⟩ | ⟨t, held, -⟩) | found
    · exact absurd comma (apart.head.missing missing)
    · rw [stack.head.none (.inr missing)] at held
      cases held
    · rw [stack.head.none (.inr missing)] at held
      cases held
    · exact .inl found
  | gap here empty =>
    rw [here, empty] at remains
    rcases remains.resolve_right (by simp) with hangs | found
    · exact .inl (.here (hangs_unmarked.under hangs))
    · exact .inl (.under (found.markSection hangs_unmarked))

theorem Remains.edits (remains : Remains p) (tidy : Tidy p) (edits : Relation.ReflTransGen Edit p q) : Remains q := by
  refine (edits_keep (I := fun p => Tidy p ∧ Remains p) ?_ edits ⟨tidy, remains⟩).2
  rintro p q edit ⟨tidy, remains⟩
  exact ⟨tidy.edit edit, Remains.edit remains tidy edit⟩

theorem Remains.adds (remains : Remains p) (pending : q.pending = o :: p.pending) (left : o.left = p.operand) :
    Remains q := by
  unfold Remains
  rw [pending]
  rcases remains with found | ⟨t, held, stray | ⟨comma, lines⟩⟩
  · exact .inl (.under found)
  · exact .inl (.here (.inr ⟨t, left.trans held, stray⟩))
  · exact .inl (.here (.inl ⟨lines, .inr ⟨t, left.trans held, comma⟩⟩))

theorem Remains.room (remains : Remains p) (tidy : Tidy p) (room : Room p place r) : Remains r := by
  cases room with
  | empty => exact remains
  | juxtaposed _ ready => exact (remains.edits tidy ready.edits).adds rfl rfl

/-- Where there is no operand, the comma is among the operators. -/
theorem Remains.operand (remains : Remains p) (empty : p.operand = none) (t : Option Tree) :
    Remains { p with operand := t } := by
  refine .inl (remains.resolve_right ?_)
  simp [empty]

/-- A bracket leaves a comma of its lines inside of its tree. -/
theorem Remains.content {opener : Pending} {kind : BracketKind} {closing : Tag} {sectioned : Bool} (remains : Remains p)
    (tidy : Tidy p) (here : p.pending = opener :: below) (opens : opener.rule.isOpener = true)
    (kind_ : opener.rule.bracketKind.getD .paren = kind)
    (tree : Tree.ofBracket kind opener.tag closing p.operand sectioned = .ok t) : t.Stray ∨ Somewhere Hangs below := by
  have stack := tidy.knows.stack
  have known := tidy.knows.pending
  have opening : opener.rule.fixity = .opening := by simpa [Rule.isOpener] using opens
  unfold Remains at remains
  rw [here] at stack known remains
  have none : opener.left = none := stack.head.none (.inl (by simp [opening]))
  rcases remains with ((⟨-, comma | ⟨t, held, -⟩⟩ | ⟨t, held, -⟩) | found) | ⟨t, held, stray | ⟨comma, lines⟩⟩
  · obtain ⟨kind, bracket⟩ := (regular known.head.2).bracket (.inl opening)
    rw [bracket] at comma
    cases comma
  · rw [none] at held
    cases held
  · rw [none] at held
    cases held
  · exact .inr found
  · exact .inl (Tree.stray_ofBracket held stray tree)
  · have refuses : kind = .block ∨ kind = .file := by
      rw [inLines, innermost_opener opens, Option.any_some, Bool.or_eq_true, beq_iff_eq, beq_iff_eq] at lines
      rcases lines with block | file
      · exact .inl (by rw [← kind_, block]; rfl)
      · exact .inr (by rw [← kind_, file]; rfl)
    cases t with
    | comma =>
      rw [Option.mem_def.1 held] at tree
      rcases refuses with rfl | rfl <;> cases tree
    | _ => cases comma

theorem Remains.closes (remains : Remains p) (tidy : Tidy p) (closes : Closes C p q) : Remains q := by
  obtain ⟨edits, here, opens, partner, tree⟩ := closes
  rcases (remains.edits tidy edits).content (tidy.edits edits) here opens rfl tree with stray | found
  · exact .inr ⟨_, rfl, .inl stray⟩
  · exact .inl found

theorem Remains.dedents (remains : Remains p) (settled : Settled p) (dedents : Dedents ends p q) : Remains q := by
  induction dedents with
  | stop => exact remains
  | step _ _ closes _ ih => exact ih (remains.closes settled.toTidy closes) (settled.closes closes)

theorem Remains.shifts (remains : Remains p) (settled : Settled p) (shifts : Shifts p span token q) : Remains q := by
  have tidy := settled.toTidy
  cases shifts with
  | eof | inside | first | continues => exact remains
  | literal _ room | name _ _ room => exact (remains.room tidy room).operand room.empties _
  | opening _ _ room | leading _ _ room => exact (remains.room tidy room).adds rfl rfl
  | closing _ _ closes => exact remains.closes tidy closes
  | headless _ empty => exact remains.adds rfl empty.symm
  | infixed _ _ _ ready => exact (remains.edits tidy ready.edits).adds rfl rfl
  | postfixed _ _ _ ready operand =>
    rcases remains.edits tidy ready.edits with found | ⟨t, held, found⟩
    · exact .inl found
    · cases operand.symm.trans held
      refine .inr ⟨_, rfl, .inl ?_⟩
      rcases found with stray | ⟨comma, -⟩
      · exact .under (List.mem_singleton_self _) stray
      · exact .items (List.mem_singleton_self _) comma rfl
  | indents => exact remains.adds rfl rfl
  | aligns _ dedents => exact remains.dedents settled dedents
  | separates _ dedents _ _ ready =>
    exact ((remains.dedents settled dedents).edits (settled.dedents dedents).toTidy ready.edits).adds rfl rfl

theorem Remains.taking {xs : List Lexeme} (remains : Remains p) (settled : Settled p) (ok : p.taking xs = .ok q) :
    Remains q := by
  induction xs generalizing p with
  | nil =>
    cases ok
    exact remains
  | cons x xs ih =>
    obtain ⟨r, shifted, ok⟩ := bind_ok ok
    exact ih (remains.shifts settled (shift_ok shifted)) (settled.shifts (shift_ok shifted)) ok

theorem Remains.finishes (remains : Remains p) (settled : Settled p) (scopes : Scoped depth p)
    (finishes : Finishes p (t, q)) : t.Stray := by
  obtain @⟨r, s, opener, below, closing, t, dedents, edits, here, opens, file, tree⟩ := finishes
  have tidy := (settled.dedents dedents).toTidy
  obtain ⟨-, rfl⟩ := ((scopes.dedents dedents).edits edits).file here opens file
  have left := (remains.dedents settled dedents).edits tidy edits
  refine (left.content (tidy.edits edits) here opens (by rw [file]; rfl) tree).resolve_right nofun

/-- A comma that is read in lines waits there. -/
theorem Shifts.remains (shifts : Shifts p span token q) (knows : Knows p) (scopes : Scoped depth p)
    (acts : Acts p token text e) (comma : e.rule.reduction = .comma) (lines : inLines p.pending = true) :
    Remains q := by
  have known := regular (.inl (knows.entries e (Registry.mem_of_find? acts.found).1))
  have between : e.rule.fixity = .infixOp := (known.separates (.inr comma)).1
  have same : ∀ {text' e'}, Acts p token text' e' → e' = e := by
    intro text' e' acts'
    cases acts.word.symm.trans acts'.word
    exact (Option.some.inj (acts.found.symm.trans acts'.found)).symm
  cases shifts with
  | infixed acts' _ _ ready =>
    cases same acts'
    exact .inl (.here (.inl ⟨(scopes.brackets inLines_ofBrackets ready.edits).trans lines, .inl comma⟩))
  | opening acts' fixity | leading acts' fixity | closing acts' fixity | postfixed acts' fixity =>
    cases same acts'
    cases fixity.symm.trans between
  | headless acts' _ sections =>
    cases same acts'
    cases (sectionable_facts sections).2.2.symm.trans comma
  | literal leaf =>
    have word := acts.word
    cases token with
    | name | operator => cases leaf
    | _ => cases word
  | name word plain =>
    cases acts.word.symm.trans word
    have here : p.registry.lookup text = e.rule := by rw [Registry.lookup, acts.found]
    rw [here, acts.operator, acts.declared] at plain
    simp at plain
  | _ => cases acts.word

/-- A comma of the source is read where lines are. -/
def ReadsComma (p : Parser) (stream : List (Except LexicalError Lexeme)) : Prop :=
  ∃ before x text e q, (before ++ [x]).map .ok <+: stream ∧ (∀ y ∈ before, y.token ≠ .eof) ∧ p.taking before = .ok q ∧
    Acts q x.token text e ∧ e.rule.reduction = .comma ∧ inLines q.pending = true

/-- Once a comma is in sight, the tree of an accepted source shows it. -/
theorem run_remains {stream : List (Except LexicalError Lexeme)} (remains : Remains p) (settled : Settled p)
    (scopes : Scoped depth p) (worded : ∀ x, .ok x ∈ stream → x.token.symbol ≠ some "")
    (ok : p.run stream = .ok (t, q)) : t.Stray := by
  obtain ⟨xs, r, front, taken, finishes⟩ := run_taking ok
  have words : ∀ x ∈ xs, x.token.symbol ≠ some "" := fun x inside =>
    worded x (front.subset (List.mem_map_of_mem inside))
  exact (remains.taking settled taken).finishes (settled.taking taken) (taking_scoped scopes words taken) finishes

/-- The tree of an accepted source shows every comma that is read in lines. -/
theorem run_stray {stream : List (Except LexicalError Lexeme)} (settled : Settled p) (scopes : Scoped depth p)
    (worded : ∀ x, .ok x ∈ stream → x.token.symbol ≠ some "") (reads : ReadsComma p stream)
    (ok : p.run stream = .ok (t, q)) : t.Stray := by
  obtain ⟨before, x, text, e, r, ⟨rest, rfl⟩, more, taken, acts, comma, lines⟩ := reads
  induction before generalizing p with
  | nil =>
    cases taken
    have other : x.token ≠ .eof := fun eof => by
      have word := acts.word
      rw [eof] at word
      cases word
    obtain ⟨s, shifted, ok⟩ := run_cons other ok
    have shifts := shift_ok shifted
    have word := worded x (List.mem_cons_self ..)
    exact run_remains (shifts.remains settled.knows scopes acts comma lines) (settled.shifts shifts)
      (scopes.shifts word shifts) (fun y inside => worded y (List.mem_cons_of_mem _ inside)) ok
  | cons y before ih =>
    rw [List.forall_mem_cons] at more
    obtain ⟨s, shifted, ok⟩ := run_cons more.1 ok
    obtain ⟨s', shifted', taken⟩ := bind_ok taken
    cases shifted.symm.trans shifted'
    have shifts := shift_ok shifted
    have word := worded y (List.mem_cons_self ..)
    exact ih (settled.shifts shifts) (scopes.shifts word shifts)
      (fun x inside => worded x (List.mem_cons_of_mem _ inside)) ok more.2 taken

/-- An accepted source has items between commas in brackets, at the end of a chain of statements and next to operators
that it declares to be loose, and nowhere else. Its tree shows every comma that is read in lines, and a line
whose operators are all tighter than its commas is refused. -/
theorem parse_commas (text : String) (origin : Origin) :
    (∀ t, parse text origin = .ok t → t.isComma = false ∧
        t.Each (Tree.Admits (LooseBy fun d => Tree.Part (.declaration d) t)) ∧
        (ReadsComma (.start .default origin) (lexemes text) → t.Stray)) ∧
      ∀ first a xs c margin stop rest, lexemes text = oneLine margin (first :: xs) stop rest →
        IsOperand .default origin first a → Line (fun r => r = .operator ∨ r = .comma) .default origin xs c →
        (∃ o ∈ c.map Prod.fst, o.rule.reduction = .comma) → CommasLoosest (c.map Prod.fst) →
        ∃ error, parse text origin = .error error ∧
          (error.cause = .strayComma ∨ ∃ left right, error.cause = .nonAssociative left right) := by
  refine ⟨fun t ok => ?_, fun first a xs c margin stop rest tokens operand line comma loosest => ?_⟩
  · obtain ⟨q, ok⟩ := parse_ok ok
    have settled := settled_start origin
    have scopes := scoped_start default_written origin
    obtain ⟨xs, p, front, taken, finishes⟩ := run_taking ok
    have words : ∀ x ∈ xs, x.token.symbol ≠ some "" := fun x inside =>
      lexemes_worded (front.subset (List.mem_map_of_mem inside))
    obtain ⟨plain, each⟩ := (settled.taking taken).finishes (taking_scoped scopes words taken) finishes
    exact ⟨plain, each, fun reads => run_stray settled scopes (fun x inside => lexemes_worded inside) reads ok⟩
  · obtain ⟨refusal, refused, cause⟩ := run_commas operand line comma loosest margin stop rest
    rw [← tokens] at refused
    exact ⟨refusal.error, by rw [parse, parseUnder, refused], cause⟩

theorem parse_commas_difference :
    (∃ t, parse "1; 2, 3" .module = .ok t ∧ t.isComma = false ∧
      t.Each (Tree.Admits (LooseBy fun d => Tree.Part (.declaration d) t)) ∧ t.Stray) ∧
      ∃ error, parse "a - 1, 2" .module = .error error ∧
        (error.cause = .strayComma ∨ ∃ left right, error.cause = .nonAssociative left right) := by
  constructor
  · have accepted : (parse "1; 2, 3" .module).toOption.isSome = true := by decide +kernel
    let before : List Lexeme := [⟨.newline 0, ⟨0, 0⟩⟩, ⟨.int 1, ⟨0, 1⟩⟩, ⟨.operator ";", ⟨1, 2⟩⟩, ⟨.int 2, ⟨3, 4⟩⟩]
    let comma : Registration := ⟨0, .infixOp "," 1 .right .comma⟩
    have waits : ((Parser.start .default .module).taking before).toOption.any (fun q =>
        q.registry.find? "," == some comma && !q.isDeclared comma.rule && inLines q.pending) = true := by
      decide +kernel
    have reads : ReadsComma (.start .default .module) (lexemes "1; 2, 3") := by
      obtain ⟨q, taken, waits⟩ := exists_ok_of_any waits
      simp only [Bool.and_eq_true, Bool.not_eq_true', beq_iff_eq] at waits
      obtain ⟨⟨found, free⟩, lines⟩ := waits
      let x : Lexeme := ⟨.operator ",", ⟨4, 5⟩⟩
      have front : (before ++ [x]).map .ok <+: lexemes "1; 2, 3" := by decide +kernel
      exact ⟨before, x, ",", comma, q, front, by decide, taken, ⟨rfl, found, rfl, free⟩, rfl, lines⟩
    obtain ⟨t, parsed⟩ := exists_ok accepted
    obtain ⟨plain, each, stray⟩ := (parse_commas _ _).1 t parsed
    exact ⟨t, parsed, plain, each, stray reads⟩
  · let minus : Link := ⟨.infixOp "-" 60 .left .operator, ⟨"-", ⟨2, 3⟩, .module⟩, rfl, rfl, rfl⟩
    let comma : Link := ⟨.infixOp "," 1 .right .comma, ⟨",", ⟨5, 6⟩, .module⟩, rfl, rfl, rfl⟩
    have tokens : lexemes "a - 1, 2" = oneLine (some (0, ⟨0, 0⟩)) [⟨.name "a", ⟨0, 1⟩⟩, ⟨.operator "-", ⟨2, 3⟩⟩,
        ⟨.int 1, ⟨4, 5⟩⟩, ⟨.operator ",", ⟨5, 6⟩⟩, ⟨.int 2, ⟨7, 8⟩⟩] ⟨8, 8⟩ [] := by
      decide +kernel
    have line : Line (fun r => r = .operator ∨ r = .comma) .default .module [⟨.operator "-", ⟨2, 3⟩⟩,
        ⟨.int 1, ⟨4, 5⟩⟩, ⟨.operator ",", ⟨5, 6⟩⟩, ⟨.int 2, ⟨7, 8⟩⟩]
        [(minus, .int 1 ⟨4, 5⟩), (comma, .int 2 ⟨7, 8⟩)] :=
      .operator rfl (by decide +kernel) (.inl rfl) rfl (.int ..) <|
        .operator rfl (by decide +kernel) (.inr rfl) rfl (.int ..) .nil
    have loosest : CommasLoosest ([(minus, Tree.int 1 ⟨4, 5⟩), (comma, .int 2 ⟨7, 8⟩)].map Prod.fst) := by
      intro o inside makes x member
      simp only [List.map_cons, List.map_nil, List.mem_cons, List.not_mem_nil, or_false] at inside member
      rcases member with rfl | rfl
      · rcases inside with rfl | rfl
        · cases makes
        · exact .inr (by decide)
      · exact .inl rfl
    have name : IsOperand .default .module ⟨.name "a", ⟨0, 1⟩⟩ (.name ⟨"a", ⟨0, 1⟩, .module⟩) :=
      .name rfl (by decide +kernel) ⟨0, 1⟩
    exact (parse_commas _ _).2 _ _ _ _ _ _ _ tokens name line ⟨comma, by simp, rfl⟩ loosest

/-- A separator hides the commas behind it. -/
theorem parse_commas_statements : ¬∀ text t, parse text .module = .ok t →
    ∀ x, Tree.Part x t → ∀ child ∈ x.children, child.isComma = true → x.isBracket = true := by
  intro brackets
  have shown : (parse "1; 2, 3" .module).toOption.any (fun t =>
      t.children.any Tree.isComma && !t.isBracket) = true := by
    decide +kernel
  obtain ⟨t, parsed, shown⟩ := exists_ok_of_any shown
  simp only [Bool.and_eq_true, Bool.not_eq_true', List.any_eq_true] at shown
  obtain ⟨⟨child, inside, comma⟩, other⟩ := shown
  have bracket := brackets _ t parsed t .root child inside comma
  rw [other] at bracket
  cases bracket

end Parser

end MixfixLambda
