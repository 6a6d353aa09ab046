import MixfixLambda.Proofs.Parse.Parenthesis
import MixfixLambda.Proofs.Token.Parenthesis

/-!
# Items in parentheses

Texts in parentheses, with semicolons between them, are one sequence. Its items are the trees of the texts, each as its
text is read alone, but for the last: where that is a sequence itself, its items take the place of the one item, because
the chain of separators is joined from the right and does not tell a sequence of its own from one in parentheses.
-/
namespace MixfixLambda

/-- A text of one line that closes no parenthesis which it has not opened, so that parentheses around it belong
together. -/
structure Enclosable (text : String) : Prop where
  line : '\n' ∉ text.toList
  nested : Token.Nested 0 (Lexer.amid 1 text.toList).tokens

instance (text : String) : Decidable (Enclosable text) :=
  decidable_of_iff ('\n' ∉ text.toList ∧ Token.Nested 0 (Lexer.amid 1 text.toList).tokens)
    ⟨fun both => ⟨both.1, both.2⟩, fun enclosable => ⟨enclosable.line, enclosable.nested⟩⟩

namespace Parser

variable {origin : Origin} {base p q r : Parser} {t : Tree} {tokens : List Token} {xs ys : List Lexeme}

/-! ### One item -/

/-- The tokens of a text in parentheses. -/
def parenthesized (tokens : List Token) : List Token :=
  .operator "(" :: tokens ++ [.operator ")"]

/-- In parentheses the tokens are a source of this tree, where the one parenthesis closes the other. -/
structure Encloses (origin : Origin) (tokens : List Token) (t : Tree) : Prop where
  flat : ∀ token ∈ tokens, token ≠ .eof ∧ token.symbol ≠ some ""
  nested : Token.Nested 0 tokens
  parses : ∃ xs q r stop, xs.map Lexeme.token = parenthesized tokens ∧ (begun origin).taking xs = .ok q ∧
    q.finish stop = .ok (t, r)

theorem parenthesized_more (flat : ∀ token ∈ tokens, token ≠ .eof ∧ token.symbol ≠ some "") :
    ∀ token ∈ parenthesized tokens, token ≠ .eof := by
  intro token member
  simp only [parenthesized, List.mem_append, List.mem_cons] at member
  rcases member with (rfl | member) | rfl | none
  · exact Token.noConfusion
  · exact (flat token member).1
  · exact Token.noConfusion
  · cases none

/-- Such a text is read as its tree wherever an operand is wanted. -/
theorem Encloses.taking (encloses : Encloses origin tokens t) (u : p.Undeclared) (empty : p.operand = none)
    (rules : p.registry = .default) (same : ys.map Lexeme.token = parenthesized tokens) :
    ∃ q, p.taking ys = .ok q ∧ Adds p t q ∧ t.isComma = false := by
  obtain ⟨xs, q, r, stop, own, taken, finished⟩ := encloses.parses
  exact u.taking_parenthesis empty rules own (same.trans own.symm) encloses.flat encloses.nested taken finished

/-- An operand that nothing waits for settles as it is. -/
theorem Adds.settles (adds : Adds p t q) (u : p.Undeclared) : Settles p t q := by
  obtain ⟨t', operand, agrees⟩ := adds.operand
  have rules : q.registry.entries = Registry.default.entries := by rw [adds.registry, u.rules]
  refine ⟨by rw [operand]; rfl, ⟨rules, adds.pending ▸ u.words⟩, adds.layout, adds.started, q, t',
    ⟨adds.pending, adds.layout, adds.started, rules⟩, operand, agrees, rfl, fun _ _ _ => rfl⟩

/-! ### Items and semicolons -/

/-- The line is such a text with its parentheses. -/
def IsItem (origin : Origin) (line : List Token) (t : Tree) : Prop :=
  ∃ tokens, line = parenthesized tokens ∧ Encloses origin tokens t

/-- In front of every item there are the rules of the default grammar. -/
theorem readsItems_parenthesized (opened : Opened base) :
    ReadsItems base ";" (IsItem origin) fun p => p.registry = .default where
  flat item := by
    obtain ⟨tokens, rfl, encloses⟩ := item
    exact parenthesized_more encloses.flat
  settles item between rules same := by
    obtain ⟨tokens, rfl, encloses⟩ := item
    obtain ⟨q, taken, adds, plain⟩ := encloses.taking between.undeclared between.empty rules same
    refine ⟨q, taken, adds.settles between.undeclared, plain, fun r tag reduced => ?_⟩
    cases (between.stops opened adds.pending tag).symm.trans reduced
    exact adds.registry.trans rules

theorem opened_begun (origin : Origin) : Opened (begun origin) :=
  ⟨⟨_, _, rfl, rfl⟩, operand_begun origin, begun_undeclared origin⟩

/-- The end of the source joins what the file holds. -/
theorem Ends.finish (ends : Ends (begun origin) t q) (plain : t.isComma = false) (stop : Span) :
    ∃ t' r, q.finish stop = .ok (t', r) ∧ t'.unlocated = t.unlocated := by
  obtain ⟨r, reduced, joined⟩ := ends.joins
  obtain ⟨t', operand, agrees⟩ := joined.operand
  rw [← Tree.isComma_unlocated, ← agrees, Tree.isComma_unlocated] at plain
  obtain ⟨s, finished⟩ :=
    ((fresh_begun origin).finish ends.layout ends.present reduced joined.pending operand stop).2 plain
  exact ⟨t', s, finished, agrees⟩

/-- Items with semicolons between them are one sequence. -/
theorem run_parenthesized {line : List Token} {lines : List (List Token)} {trees : List Tree}
    (first : IsItem origin line t) (others : List.Forall₂ (IsItem origin) lines trees)
    (same : xs.map Lexeme.token = line ++ lines.flatMap (.operator ";" :: ·)) (stop : Span) :
    ∃ t' r, (begun origin).run (xs.map .ok ++ [.ok ⟨.eof, stop⟩]) = .ok (t', r) ∧
      t'.unlocated = (inSequence t trees).unlocated := by
  have opened := opened_begun origin
  obtain ⟨q, ran, ends, plain⟩ := run_items (readsItems_parenthesized opened) opened (cuts_semicolon _)
    Token.noConfusion first others (opened.between ";") (registry_begun origin) same
  obtain ⟨t', r, finished, agrees⟩ := ends.finish plain stop
  exact ⟨t', r, (ran _).trans finished, agrees⟩

/-! ### Texts -/

variable {trees : List Tree}

theorem toList_parenthesized (text : String) : ("(" ++ text ++ ")").toList = '(' :: (text.toList ++ [')']) := by
  simp [String.toList_append]

theorem spellsAll_parenthesized {text : List Char} (inner : ∀ more, SpellsAll text (')' :: more) tokens)
    (rest : List Char) : SpellsAll ('(' :: (text ++ [')'])) rest (parenthesized tokens) := by
  have opening := (Cursor.spells_punctuation (c := '(') (by decide) (text ++ [')'] ++ rest)).all
  have closing := (Cursor.spells_punctuation (c := ')') (by decide) rest).all
  exact opening.append ((inner rest).append closing)

/-- A source that starts with a parenthesis starts a line without indentation. -/
theorem parseUnder_opens {source : String} {more : List Char} (chars : source.toList = '(' :: more) :
    parseUnder .default origin source = (begun origin).run (Lexer.amid 0 source.toList).lexemes := by
  obtain ⟨place, first⟩ := Lexer.lexemes_ofChars (c := '(') (by decide) more
  rw [parseUnder, lexemes, Lexer.ofString, chars, first]
  exact run_ok Token.noConfusion (shift_first .default origin place) _

/-- Where the parenthesis behind a text is no token, the one in front is left open. -/
theorem run_breaks {text : List Char} (flat : ∀ token ∈ tokens, token ≠ .eof ∧ token.symbol ≠ some "")
    (nested : Token.Nested 0 tokens) (breaks : Breaks text [')'] tokens) (result : Tree × Parser) :
    (begun origin).run (Lexer.amid 0 ('(' :: (text ++ [')']))).lexemes ≠ .ok result := by
  intro ran
  obtain ⟨ys, after, opening, front⟩ := (Cursor.spells_punctuation (c := '(') (by decide) (text ++ [')'])).all 0
  obtain ⟨xs, last, same, behind, ended⟩ := breaks after
  have own : (ys ++ xs).map Lexeme.token = .operator "(" :: tokens := by
    rw [List.map_append, opening, same]
    rfl
  have more : ∀ x ∈ ys ++ xs, x.token ≠ .eof := by
    intro x inside
    rcases List.mem_cons.1 (own ▸ List.mem_map_of_mem inside : x.token ∈ .operator "(" :: tokens) with same | member
    · exact same ▸ Token.noConfusion
    · exact (flat _ member).1
  rw [List.singleton_append] at front
  rw [front, behind, ← List.append_assoc, ← List.map_append] at ran
  obtain ⟨q, taken, finished⟩ := run_taken more ran
  cases last with
  | error fault => cases finished
  | ok x =>
    obtain ⟨token, stop⟩ := x
    cases ended _ rfl
    exact finish_open own flat nested taken stop _ finished

/-- A text in parentheses that is accepted is an item, whatever follows it. -/
theorem exists_item {text : String} (enclosable : Enclosable text) (parsed : parse ("(" ++ text ++ ")") origin = .ok t) :
    ∃ line, IsItem origin line t ∧ ∀ rest, SpellsAll ("(" ++ text ++ ")").toList rest line := by
  obtain ⟨tokens, front, ends, outcome⟩ := Lexer.spellsAll_or_breaks enclosable.line 1
  have flat : ∀ token ∈ tokens, token ≠ .eof ∧ token.symbol ≠ some "" := fun token member =>
    ⟨fun same => ends (same ▸ member), Lexer.tokens_worded (front.mem member)⟩
  have nested : Token.Nested 0 tokens := by
    obtain ⟨behind, whole⟩ := front
    exact Token.Nested.of_append (whole.symm ▸ enclosable.nested)
  obtain ⟨r, ran⟩ := parse_ok parsed
  rw [parseUnder_opens (toList_parenthesized text), toList_parenthesized] at ran
  rcases outcome with spells | breaks
  · have whole := spellsAll_parenthesized spells
    obtain ⟨xs, after, same, read⟩ := whole [] 0
    obtain ⟨stop, last⟩ := Lexer.lexemes_end after
    have more : ∀ x ∈ xs, x.token ≠ .eof := fun x inside =>
      parenthesized_more flat _ (same ▸ List.mem_map_of_mem inside)
    rw [List.append_nil, last] at read
    rw [read] at ran
    obtain ⟨q, taken, finished⟩ := run_taken more ran
    refine ⟨parenthesized tokens, ⟨tokens, rfl, flat, nested, xs, q, r, stop, same, taken, finished⟩, fun rest => ?_⟩
    rw [toList_parenthesized]
    exact whole rest
  · exact absurd ran (run_breaks flat nested breaks _)

theorem spellsAll_semicolon (rest : List Char) : SpellsAll "; ".toList rest [.operator ";"] := by
  have semicolon := (Cursor.spells_punctuation (c := ';') (by decide) ([' '] ++ rest)).all
  exact semicolon.append (spellsAll_space rest)

/-- Items with a semicolon in front of each. -/
theorem exists_items {texts : List String} (enclosable : ∀ text ∈ texts, Enclosable text)
    (parsed : List.Forall₂ (fun text t => parse ("(" ++ text ++ ")") origin = .ok t) texts trees) :
    ∃ lines, List.Forall₂ (IsItem origin) lines trees ∧
      ∀ rest, SpellsAll ((texts.map fun text => ("(" ++ text ++ ")").toList).flatMap ("; ".toList ++ ·)) rest
        (lines.flatMap (.operator ";" :: ·)) := by
  induction parsed with
  | nil => exact ⟨[], .nil, fun rest position => ⟨[], position, rfl, rfl⟩⟩
  | cons first _ ih =>
    rw [List.forall_mem_cons] at enclosable
    obtain ⟨line, item, spells⟩ := exists_item enclosable.1 first
    obtain ⟨lines, items, others⟩ := ih enclosable.2
    refine ⟨line :: lines, .cons item items, fun rest => ?_⟩
    exact ((spellsAll_semicolon _).append (spells _)).append (others rest)

end Parser

/-- The items of a sequence, and anything else alone. -/
def Tree.asItems (t : Tree) : List Tree :=
  (itemsOf .sequence t).getD [t]

theorem Parser.inSequence_asItems (t : Tree) {trees : List Tree} {last : Tree} (found : trees.getLast? = some last) :
    ∃ place, inSequence t trees = .sequence (t :: trees.dropLast ++ last.asItems) place := by
  induction trees generalizing t with
  | nil => cases found
  | cons next trees ih =>
    cases trees with
    | nil =>
      cases found
      exact ⟨_, rfl⟩
    | cons second trees =>
      obtain ⟨place, chain⟩ := ih next (by rwa [List.getLast?_cons_cons] at found)
      rw [inSequence, chain]
      exact ⟨_, rfl⟩

theorem Tree.sequence_of_unlocated {t : Tree} {items : List Tree} {place : Span}
    (agrees : t.unlocated = (Tree.sequence items place).unlocated) :
    ∃ items' place', t = .sequence items' place' ∧ items'.map Tree.unlocated = items.map Tree.unlocated := by
  cases t with
  | sequence items' place' =>
    rw [Tree.unlocated, Tree.unlocated, unlocatedEach_eq_map, unlocatedEach_eq_map, Tree.sequence.injEq] at agrees
    exact ⟨items', place', rfl, agrees.1⟩
  | _ => cases agrees

theorem Tree.eq_sequence {t : Tree} {items : List Tree} (found : itemsOf .sequence t = some items) :
    ∃ place, t = .sequence items place := by
  cases t with
  | sequence _ place =>
    cases found
    exact ⟨place, rfl⟩
  | _ => cases found

/-- No sequence is its only item. -/
theorem Tree.asItems_unlocated {last : Tree} :
    last.asItems.map Tree.unlocated = [last.unlocated] ↔ itemsOf .sequence last = none := by
  unfold asItems
  cases found : itemsOf .sequence last with
  | none => simp
  | some items =>
    simp only [Option.getD_some, reduceCtorEq, iff_false]
    intro same
    obtain ⟨place, rfl⟩ := eq_sequence found
    rw [Tree.unlocated, unlocatedEach_eq_map] at same
    have size := congrArg sizeOf same
    simp only [List.cons.sizeOf_spec, Tree.sequence.sizeOf_spec, List.nil.sizeOf_spec] at size
    omega

theorem Tree.dropLast_asItems {trees : List Tree} {last : Tree} (found : trees.getLast? = some last) :
    (trees.dropLast ++ last.asItems).map Tree.unlocated = trees.map Tree.unlocated ↔
      itemsOf .sequence last = none := by
  have split := List.dropLast_append_getLast? last (Option.mem_def.2 found)
  rw [← asItems_unlocated]
  conv_lhs => rhs; rw [← split]
  rw [List.map_append, List.map_append, List.append_cancel_left_eq, List.map_singleton]

/-- Two and more items with semicolons between them are read as the sequence that they are joined to. -/
theorem Parser.parse_items {origin : Origin} {text : String} {texts : List String} {t last : Tree} {trees : List Tree}
    (enclosable : ∀ text' ∈ text :: texts, Enclosable text') (first : parse ("(" ++ text ++ ")") origin = .ok t)
    (others : List.Forall₂ (fun text t => parse ("(" ++ text ++ ")") origin = .ok t) texts trees)
    (found : trees.getLast? = some last) :
    ∃ items place, parse ("; ".intercalate ((text :: texts).map fun text => "(" ++ text ++ ")")) origin =
        .ok (.sequence items place) ∧
      items.map Tree.unlocated = (t :: trees.dropLast ++ last.asItems).map Tree.unlocated := by
  rw [List.forall_mem_cons] at enclosable
  obtain ⟨line, item, spells⟩ := exists_item enclosable.1 first
  obtain ⟨lines, items, separated⟩ := exists_items enclosable.2 others
  have chars : ("; ".intercalate ((text :: texts).map fun text => "(" ++ text ++ ")")).toList =
      ("(" ++ text ++ ")").toList ++
        (texts.map fun text => ("(" ++ text ++ ")").toList).flatMap ("; ".toList ++ ·) := by
    rw [String.toList_intercalate, List.map_cons, List.map_cons, intercalate_flatMap, List.map_map]
    rfl
  obtain ⟨xs, after, same, read⟩ := ((spells _).append (separated [])) 0
  obtain ⟨stop, ended⟩ := Lexer.lexemes_end after
  obtain ⟨joint, r, ran, agrees⟩ := run_parenthesized item items same stop
  obtain ⟨place, chain⟩ := inSequence_asItems t found
  rw [chain] at agrees
  obtain ⟨items, place, rfl, joins⟩ := Tree.sequence_of_unlocated agrees
  refine ⟨items, place, ?_, joins⟩
  rw [List.append_nil, ← chars, ended] at read
  rw [parse, parseUnder_opens (chars.trans (by rw [toList_parenthesized, List.cons_append])), read, ran]

/-- Texts in parentheses with semicolons between them are one sequence: of the trees of the texts, and of the items of
the last tree in its place where this is a sequence itself. So each text keeps its own item if and only if the last one
is no sequence. -/
theorem parse_parentheses (origin : Origin) {texts : List String} {trees : List Tree} (several : 2 ≤ texts.length)
    (enclosable : ∀ text ∈ texts, Enclosable text)
    (parsed : List.Forall₂ (fun text t => parse ("(" ++ text ++ ")") origin = .ok t) texts trees) :
    ∃ items place last, parse ("; ".intercalate (texts.map fun text => "(" ++ text ++ ")")) origin =
        .ok (.sequence items place) ∧ trees.getLast? = some last ∧
      items.map Tree.unlocated = (trees.dropLast ++ last.asItems).map Tree.unlocated ∧
      (items.map Tree.unlocated = trees.map Tree.unlocated ↔ Tree.itemsOf .sequence last = none) := by
  cases parsed with
  | nil => cases several
  | @cons text t texts trees first others =>
    cases others with
    | nil => exact absurd several (by simp)
    | @cons _ next _ trees second others =>
      have found := List.getLast?_cons (a := next) (l := trees)
      obtain ⟨items, place, read, joins⟩ := Parser.parse_items enclosable first (.cons second others) found
      have ends : (t :: next :: trees).getLast? = _ := List.getLast?_cons_cons.trans found
      exact ⟨items, place, _, read, ends, joins, joins.symm ▸ Tree.dropLast_asItems ends⟩

theorem exists_parsed {origin : Origin} {texts : List String}
    (accepted : ∀ text ∈ texts, (parse ("(" ++ text ++ ")") origin).toOption.isSome = true) :
    ∃ trees, List.Forall₂ (fun text t => parse ("(" ++ text ++ ")") origin = .ok t) texts trees := by
  induction texts with
  | nil => exact ⟨[], .nil⟩
  | cons text texts ih =>
    rw [List.forall_mem_cons] at accepted
    obtain ⟨t, parsed⟩ := exists_ok accepted.1
    obtain ⟨trees, others⟩ := ih accepted.2
    exact ⟨t :: trees, .cons parsed others⟩

theorem parse_parentheses_three : ∃ trees,
    List.Forall₂ (fun text t => parse ("(" ++ text ++ ")") .module = .ok t) ["1", "x = 2; x", "f (3)"] trees ∧
      ∃ items place last, parse "(1); (x = 2; x); (f (3))" .module = .ok (.sequence items place) ∧
        trees.getLast? = some last ∧ items.map Tree.unlocated = (trees.dropLast ++ last.asItems).map Tree.unlocated ∧
        (items.map Tree.unlocated = trees.map Tree.unlocated ↔ Tree.itemsOf .sequence last = none) := by
  have accepted : ∀ text ∈ ["1", "x = 2; x", "f (3)"],
      (parse ("(" ++ text ++ ")") .module).toOption.isSome = true := by
    decide +kernel
  obtain ⟨trees, parsed⟩ := exists_parsed accepted
  have whole := parse_parentheses .module (by decide) (by decide +kernel) parsed
  have source : "; ".intercalate (["1", "x = 2; x", "f (3)"].map fun text => "(" ++ text ++ ")") =
      "(1); (x = 2; x); (f (3))" := by decide +kernel
  rw [source] at whole
  exact ⟨trees, parsed, whole⟩

/-- The last parentheses are lost where they hold a sequence. -/
theorem parse_parentheses_splices : (parse "(1)" .module).isOk = true ∧ (parse "(2; 3)" .module).isOk = true ∧
    ∃ items place, parse "(1); (2; 3)" .module = .ok (.sequence items place) ∧ items.length = 3 := by
  refine ⟨by decide +kernel, by decide +kernel, ?_⟩
  have count : (parse "(1); (2; 3)" .module).toOption.any
      (fun t => (t.itemsOf .sequence).map List.length == some 3) = true := by
    decide +kernel
  obtain ⟨t, parsed, three⟩ := exists_ok_of_any count
  obtain ⟨items, sequence, length⟩ := Option.map_eq_some_iff.1 (beq_iff_eq.1 three)
  obtain ⟨place, rfl⟩ := Tree.eq_sequence sequence
  exact ⟨items, place, parsed, length⟩

end MixfixLambda
