import MixfixLambda.Proofs.Parse.Followed

/-!
# Lines and statements in parentheses

A block of lines and the same lines between parentheses, with semicolons instead of line breaks, are the same chain of
items. Each line is read as it would be alone, the separator behind it makes it the left operand of the chain, and the
end of the block or the closing parenthesis joins all of them from the last one.
-/
namespace MixfixLambda

/-- Tokens of one line that declare nothing and are not cut by a separator. -/
structure IsLine (line : List Token) : Prop where
  nonempty : line ≠ []
  flat : ∀ token ∈ line, token ≠ .eof ∧ ∀ width, token ≠ .newline width
  plain : ∀ token ∈ line, ¬token.Declares
  uncut : Token.Uncut 0 line

namespace Parser

variable {base base' p p' q r : Parser} {o opener top : Pending} {above above' below : List Pending} {t : Tree}
  {rule : Rule} {tag : Tag} {span stop : Span}

/-! ### The end of a line -/

/-- What has been read of a line reduces to this tree, under a separator and at the end of the bracket. -/
structure Settles (base : Parser) (t : Tree) (p : Parser) : Prop where
  present : p.operand.isSome = true
  undeclared : p.Undeclared
  layout : p.layout = base.layout
  started : p.started = base.started
  reduces : ∃ r t', Upon base [] r ∧ r.operand = some t' ∧ t'.unlocated = t.unlocated ∧
    p.reduceToOpener = r.reduceToOpener ∧
    ∀ (incoming : Rule) (tag : Tag), incoming.left ≤ 1 → p.reduceLeft incoming tag = r.reduceLeft incoming tag

theorem lineRules_loose : ∀ rule ∈ lineRules, (2 ≤ rule.right → rule.isSeparator = false ∧ rule.isOpener = false) ∧
    rule.bracketKind ≠ some .file := by
  decide +kernel

/-- An operator without its right operand is refused at the end. -/
theorem reduceToOpener_lacks (here : p.pending = top :: below) (operator : top.rule.isOpener = false)
    (separates : top.rule.isSeparator = false) (empty : p.operand = none) :
    p.dropSeparators.reduceToOpener ≠ .ok q := by
  have kept : p.dropSeparators = p := by
    simp only [dropSeparators, empty, here, eraseSeparators, separates, Bool.false_eq_true, if_false]
    rw [← here, ← empty]
  rw [kept, reduceToOpener.eq_def]
  split
  · next found =>
    rw [here] at found
    cases found
  · next found =>
    rw [here] at found
    cases found
    rw [operator, if_neg Bool.false_ne_true]
    split
    · intro ok
      cases ok
    · next some =>
      rw [empty] at some
      cases some

theorem ofBracket_file {opening closing : Tag} {content : Tree}
    (made : Tree.ofBracket .file opening closing (some content) false = .ok t) : content = t ∧ t.isComma = false := by
  cases content <;> cases made <;> exact ⟨rfl, rfl⟩

/-- A line of its own has no open bracket at its end. -/
theorem Mirrors.ends (fresh : base.Fresh) (m : Mirrors base base' above above' p p') (stack : Stacked p.pending)
    (begun : p.operand = none → above ≠ []) (ok : p.finish stop = .ok (t, q)) :
    opened above = [] ∧ p.operand.isSome = true ∧ t.isComma = false ∧
      ∃ r, p.reduceToOpener = .ok r ∧ r.operand = some t := by
  obtain ⟨tag, width, file, layout⟩ := id fresh
  obtain ⟨p₁, closed, ok⟩ := bind_ok ok
  have blocks : closeBlocks (fun _ => true) stop p p.layout = .ok p := by
    rw [m.here.layout, layout]
    cases opened above <;> rfl
  cases blocks.symm.trans closed
  obtain ⟨r, reduced, ok⟩ := bind_ok ok
  obtain ⟨⟨content, opener, free⟩, popped, ok⟩ := bind_ok ok
  obtain ⟨below, here, opens, rfl, rfl⟩ := popBracket_ok popped
  dsimp only at ok
  split at ok
  · next kind =>
    have brackets := m.brackets fresh stack ((dropSeparators_edits p).trans (reduceToOpener_ok reduced).1)
    -- A bracket of the line would be the innermost one, and the file is not among the brackets of a line.
    have outside : opened above = [] := by
      cases inner : opened above with
      | nil => rfl
      | cons rule rules =>
        rw [here, opened_opener opens, inner] at brackets
        obtain ⟨rfl, -⟩ := List.cons.inj brackets
        have inside : opener.rule ∈ opened above := by rw [inner]; exact List.mem_cons_self ..
        obtain ⟨o, member, same⟩ := List.mem_map.1 (List.mem_filter.1 inside).1
        obtain ⟨_, steady⟩ := m.steady.mem member
        exact absurd (same ▸ kind) (lineRules_loose _ steady.ruled).2
    have present : p.operand.isSome = true := by
      rw [← Option.not_isNone]
      refine Bool.not_eq_true' _ ▸ Bool.eq_false_iff.2 fun absent => ?_
      have empty := Option.isNone_iff_eq_none.1 absent
      have some := begun empty
      cases above with
      | nil => exact some rfl
      | cons top above =>
        have loose := (lineRules_loose _ m.steady.head.ruled).1 (m.steady.head.loose outside)
        exact reduceToOpener_lacks m.here.pending loose.2 loose.1 empty reduced
    rw [dropSeparators_some present] at reduced
    refine ⟨outside, present, ?_⟩
    obtain ⟨_, _, _, _, _, _, some, _, _⟩ := m.reduceToOpener fresh reduced
    obtain ⟨content, operand⟩ := Option.isSome_iff_exists.1 (some present)
    rw [operand] at ok
    split at ok
    · next made =>
      cases ok
      obtain ⟨rfl, plain⟩ := ofBracket_file made
      exact ⟨plain, r, reduced, operand⟩
    · cases ok
  · cases ok

/-- What has been read of a line that is accepted alone reduces to the tree of that line. -/
theorem Mirrors.settles (fresh : base.Fresh) (floor : Floor base') (m : Mirrors base base' above above' p p')
    (stack : Stacked p.pending) (begun : p.operand = none → above ≠ []) (ok : p.finish stop = .ok (t, q)) :
    Settles base' t p' ∧ t.isComma = false := by
  obtain ⟨outside, present, plain, r, reduced, operand⟩ := m.ends fresh stack begun ok
  obtain ⟨left, left', r', rest, brackets, first, -, reduces, separates⟩ := m.reduceToOpener fresh reduced
  cases rest.alike with
  | cons head =>
    rw [opened_opener (first _ rfl), outside] at brackets
    cases brackets
  | nil =>
    obtain ⟨t', operand', agrees⟩ := rest.behind operand
    have outside' : opened above' = [] := by rw [opened_alike m.alike, outside]
    have layout := m.there.layout
    rw [outside'] at layout
    exact ⟨⟨by rw [m.isSome, present], (m.undeclared fresh floor).2, layout, m.there.started,
      r', t', rest.there, operand', agrees, reduces, separates outside⟩, plain⟩

/-- The tokens, wherever they stand, are a source of this tree. -/
def Parses (origin : Origin) (tokens : List Token) (t : Tree) : Prop :=
  ∃ (xs : List Lexeme) (q : Parser), xs.map Lexeme.token = tokens ∧
    (start .default origin).run (xs.map .ok) = .ok (t, q)

/-- A line that is accepted alone is read so on everything that a line may lie on. -/
theorem line_settles {origin : Origin} {line : List Token} {ys : List Lexeme} (isLine : IsLine line)
    (parses : Parses origin (.newline 0 :: line ++ [.eof]) t) (floor : Floor base') (empty : base'.operand = none)
    (rules : base'.registry.entries = Registry.default.entries) (tokens : ys.map Lexeme.token = line) :
    ∃ q, base'.taking ys = .ok q ∧ Settles base' t q ∧ t.isComma = false := by
  obtain ⟨xs, q, same, ok⟩ := parses
  obtain ⟨first, behind, rfl, margin, others⟩ := List.map_eq_cons_iff.1 same
  obtain ⟨xs, ending, rfl, rfl, single⟩ := List.map_eq_append_iff.1 others
  obtain ⟨x, rfl, last⟩ := List.map_eq_singleton_iff.1 single
  have flat : ∀ x ∈ xs, x.token ≠ .eof ∧ (∀ width, x.token ≠ .newline width) ∧ ¬x.token.Declares := by
    intro x inside
    have member := List.mem_map_of_mem (f := Lexeme.token) inside
    exact ⟨(isLine.flat _ member).1, (isLine.flat _ member).2, isLine.plain _ member⟩
  obtain ⟨first, place⟩ := first
  cases margin
  rw [List.map_cons, run_ok Token.noConfusion (shift_first .default origin place), List.map_append] at ok
  obtain ⟨p, taken, ok⟩ := run_taken (fun x inside => (flat x inside).1) ok
  obtain ⟨token, stop⟩ := x
  cases last
  have finished : p.finish stop = .ok (t, q) := ok
  have fresh : (begun origin).Fresh := ⟨_, 0, rfl, rfl⟩
  have m : Mirrors (begun origin) base' [] [] (begun origin) base' :=
    ⟨⟨rfl, rfl, rfl, rfl⟩, ⟨rfl, rfl, rfl, rules⟩, .nil, .nil, by rw [empty]; rfl⟩
  have stack : Stacked (begun origin).pending :=
    .cons ⟨by simp [Pending.leading, fileRule, Rule.opening], by simp [Pending.leading]⟩ .nil
  have some : xs ≠ [] := by
    rintro rfl
    exact isLine.nonempty rfl
  obtain ⟨left, left', q', taken', m, stack, begun⟩ :=
    m.taking fresh floor stack tokens flat isLine.uncut (.inl some) taken
  exact ⟨q', taken', m.settles fresh floor stack begun finished⟩

/-! ### Lines and separators -/

/-- The rule of the separators of lines and of statements. -/
def separator (symbol : String) : Rule :=
  .infixOp symbol 1 .right .sequence

/-- A separator behind an item. -/
def Parts (symbol : String) (o : Pending) (item : Tree) : Prop :=
  ∃ tag left, o = .infixed (separator symbol) tag left ∧ left.unlocated = item.unlocated

/-- The state in front of a line, behind these items of the bracket, newest first. -/
structure Between (base : Parser) (symbol : String) (items : List Tree) (p : Parser) : Prop where
  links : ∃ links, p.pending = links ++ base.pending ∧ List.Forall₂ (Parts symbol) links items
  empty : p.operand = none
  undeclared : p.Undeclared
  layout : p.layout = base.layout
  started : p.started = base.started

/-- The content of the bracket has been joined. -/
structure Joined (base : Parser) (t : Tree) (p : Parser) : Prop where
  pending : p.pending = base.pending
  operand : ∃ t', p.operand = some t' ∧ t'.unlocated = t.unlocated
  rules : p.registry.entries = Registry.default.entries
  layout : p.layout = base.layout
  started : p.started = base.started

/-- The content of the bracket, which its end joins. -/
structure Ends (base : Parser) (t : Tree) (p : Parser) : Prop where
  present : p.operand.isSome = true
  undeclared : p.Undeclared
  layout : p.layout = base.layout
  joins : ∃ r, p.reduceToOpener = .ok r ∧ Joined base t r

/-- The state in a bracket that has just been opened. -/
structure Opened (base : Parser) : Prop where
  opener : ∃ opener below, base.pending = opener :: below ∧ opener.rule.isOpener = true
  empty : base.operand = none
  undeclared : base.Undeclared

variable {symbol : String} {items : List Tree}

theorem Opened.between (opened : Opened base) (symbol : String) : Between base symbol [] base :=
  ⟨⟨[], rfl, .nil⟩, opened.empty, opened.undeclared, rfl, rfl⟩

theorem Between.floor (between : Between base symbol items p) (opened : Opened base) : Floor p := by
  refine ⟨?_, between.undeclared.words⟩
  obtain ⟨links, here, parts⟩ := between.links
  cases parts with
  | nil =>
    obtain ⟨opener, below, found, opens⟩ := opened.opener
    exact ⟨opener, below, here.trans found, .inl opens⟩
  | cons head =>
    obtain ⟨tag, left, rfl, -⟩ := head
    exact ⟨_, _, here, .inr rfl⟩

/-- Behind an item that has been reduced there is nothing left to reduce for a separator. -/
theorem Between.stops (between : Between base symbol items p) (opened : Opened base) (same : q.pending = p.pending)
    (tag : Tag) : q.reduceLeft (separator symbol) tag = .ok q := by
  obtain ⟨links, here, parts⟩ := between.links
  cases parts with
  | nil =>
    obtain ⟨opener, below, found, opens⟩ := opened.opener
    exact reduceLeft_opener (same.trans (here.trans found)) opens _ _
  | cons head =>
    obtain ⟨tag', left, rfl, -⟩ := head
    exact reduceLeft_right (same.trans here) rfl rfl ⟨rfl, rfl⟩ tag

/-- A separator waits behind the line, whose tree is one more item. -/
theorem Between.separate (between : Between base symbol items p) (opened : Opened base) (settles : Settles p t q)
    (tag : Tag) : ∃ r, q.reduceLeft (separator symbol) tag = .ok r ∧
      Between base symbol (t :: items) (r.push (separator symbol) tag) := by
  obtain ⟨r, t', upon, operand, agrees, -, separates⟩ := settles.reduces
  obtain ⟨links, here, parts⟩ := between.links
  have pushed : (r.push (separator symbol) tag).pending =
      .infixed (separator symbol) tag t' :: (links ++ base.pending) := by
    rw [Parser.push, operand, upon.pending.trans here]
    rfl
  refine ⟨r, (separates _ _ (Nat.le_refl 1)).trans (between.stops opened upon.pending tag),
    ⟨⟨_, pushed, .cons ⟨tag, t', rfl, agrees⟩ parts⟩, rfl, ⟨upon.rules, ?_⟩, upon.layout.trans between.layout,
    upon.started.trans between.started⟩⟩
  rw [pushed, ← here, List.forall_mem_cons]
  exact ⟨fun kind => Reduction.noConfusion, between.undeclared.words⟩

/-- Items that are joined from the last one, which stands behind the others. -/
def joined (items : List Tree) (last : Tree) : Tree :=
  items.foldl (fun t item => Tree.separate .sequence item t) last

theorem joined_congr (items : List Tree) {last last' : Tree} (agrees : last'.unlocated = last.unlocated) :
    (joined items last').unlocated = (joined items last).unlocated := by
  induction items generalizing last last' with
  | nil => exact agrees
  | cons item items ih => exact ih (Tree.ofInfix_congr .sequence (rfl : (Tag.synthetic "").text = _) rfl agrees)

/-- The end of the bracket joins the items. -/
theorem reduceToOpener_joins {links : List Pending} (opened : Opened base) (here : p.pending = links ++ base.pending)
    (parts : List.Forall₂ (Parts symbol) links items) (operand : p.operand = some t)
    (rules : p.registry.entries = Registry.default.entries) (layout : p.layout = base.layout)
    (started : p.started = base.started) : ∃ r, p.reduceToOpener = .ok r ∧ Joined base (joined items t) r := by
  induction parts generalizing p t with
  | nil =>
    obtain ⟨opener, below, found, opens⟩ := opened.opener
    exact ⟨p, reduceToOpener_opener (here.trans found) opens, here, ⟨t, operand, rfl⟩, rules, layout, started⟩
  | @cons link item links items head _ ih =>
    obtain ⟨tag, left, rfl, agrees⟩ := head
    let next : Parser := { p with
      operand := some (Tree.ofInfix .sequence tag left t), pending := links ++ base.pending }
    have reduced : p.reduceTop (.infixed (separator symbol) tag left) (links ++ base.pending) t = .ok next :=
      reduceTop_infixed rfl rfl p tag left t _
    obtain ⟨r, reduces, joins⟩ := ih (p := next) rfl rfl rules layout started
    refine ⟨r, (reduceToOpener_step here rfl operand reduced).trans reduces, { joins with operand := ?_ }⟩
    obtain ⟨t', operand', agrees'⟩ := joins.operand
    refine ⟨t', operand', agrees'.trans (joined_congr items ?_)⟩
    exact Tree.ofInfix_congr .sequence (rfl : tag.text = _) agrees rfl

/-- Behind the last line the end of the bracket joins all of them. -/
theorem Between.ends (between : Between base symbol items p) (opened : Opened base) (settles : Settles p t q) :
    Ends base (joined items t) q := by
  obtain ⟨r, t', upon, operand, agrees, reduces, -⟩ := settles.reduces
  obtain ⟨links, here, parts⟩ := between.links
  obtain ⟨s, joins, result⟩ := reduceToOpener_joins opened (upon.pending.trans here) parts operand upon.rules
    (upon.layout.trans between.layout) (upon.started.trans between.started)
  obtain ⟨whole, operand, same⟩ := result.operand
  exact ⟨settles.present, settles.undeclared, settles.layout.trans between.layout, s, reduces.trans joins,
    { result with operand := ⟨whole, operand, same.trans (joined_congr items agrees)⟩ }⟩

/-- The token separates the items of the bracket as a rule of this symbol would. -/
def Cuts (base : Parser) (symbol : String) (token : Token) : Prop :=
  ∀ (q : Parser) (span : Span), q.operand.isSome = true → q.Undeclared → q.layout = base.layout →
    q.started = base.started → ∃ tag, q.shift token span =
      (do return (← q.reduceLeft (separator symbol) tag).push (separator symbol) tag)

/-- The line is a source of its own. -/
structure Alone (origin : Origin) (line : List Token) (t : Tree) : Prop where
  isLine : IsLine line
  parses : Parses origin (.newline 0 :: line ++ [.eof]) t

/-- Items in a row. -/
def inSequence (t : Tree) : List Tree → Tree
  | [] => t
  | next :: rest => Tree.separate .sequence t (inSequence next rest)

/-- What an item settles at wherever it stands, and what is known of the state in front of each item. -/
structure ReadsItems (base : Parser) (symbol : String) (Item : List Token → Tree → Prop) (State : Parser → Prop) :
    Prop where
  flat : ∀ {line t}, Item line t → ∀ token ∈ line, token ≠ .eof
  settles : ∀ {line t items p ys}, Item line t → Between base symbol items p → State p → ys.map Lexeme.token = line →
    ∃ q, p.taking ys = .ok q ∧ Settles p t q ∧ t.isComma = false ∧
      ∀ r tag, q.reduceLeft (separator symbol) tag = .ok r → State (r.push (separator symbol) tag)

/-- The items of a bracket are read one after the other. -/
theorem run_items {Item : List Token → Tree → Prop} {State : Parser → Prop} {line : List Token}
    {lines : List (List Token)} {trees : List Tree} {token : Token} {xs : List Lexeme}
    (reads : ReadsItems base symbol Item State) (opened : Opened base) (cuts : Cuts base symbol token)
    (more : token ≠ .eof) (first : Item line t) (others : List.Forall₂ Item lines trees)
    (between : Between base symbol items p) (state : State p)
    (tokens : xs.map Lexeme.token = line ++ lines.flatMap (token :: ·)) :
    ∃ q, (∀ rest, p.run (xs.map .ok ++ rest) = q.run rest) ∧ Ends base (joined items (inSequence t trees)) q ∧
      (inSequence t trees).isComma = false := by
  have flat {line : List Token} {t : Tree} {xs : List Lexeme} (item : Item line t)
      (tokens : xs.map Lexeme.token = line) : ∀ x ∈ xs, x.token ≠ .eof := fun x inside =>
    reads.flat item _ (tokens ▸ List.mem_map_of_mem inside)
  induction others generalizing p items line t xs with
  | nil =>
    rw [List.flatMap_nil, List.append_nil] at tokens
    obtain ⟨q, taken, settles, plain, -⟩ := reads.settles first between state tokens
    exact ⟨q, run_append (flat first tokens) taken, between.ends opened settles, plain⟩
  | @cons next tree lines trees second _ ih =>
    obtain ⟨xs, zs, rfl, here, behind⟩ := List.map_eq_append_iff.1 tokens
    obtain ⟨⟨_, span⟩, ys, rfl, rfl, behind⟩ := List.map_eq_cons_iff.1 behind
    obtain ⟨q, taken, settles, -, again⟩ := reads.settles first between state here
    -- The separator makes an item of this one, and the next one begins behind it.
    obtain ⟨tag, shifted⟩ := cuts q span settles.present settles.undeclared (settles.layout.trans between.layout)
      (settles.started.trans between.started)
    obtain ⟨r, reduced, between⟩ := between.separate opened settles tag
    rw [reduced] at shifted
    obtain ⟨s, ran, ends, plain⟩ := ih second between (again r tag reduced) behind
    refine ⟨s, fun rest => ?_, ends, rfl⟩
    rw [List.map_append, List.append_assoc, run_append (flat first here) taken, List.map_cons, List.cons_append,
      run_ok more shifted, ran]

/-- The lines of a bracket are items, of which nothing more needs to be known. -/
theorem readsItems_lines {origin : Origin} (opened : Opened base) :
    ReadsItems base symbol (Alone origin) fun _ => True where
  flat alone token inside := (alone.isLine.flat token inside).1
  settles alone between _ tokens := by
    obtain ⟨q, taken, settles, plain⟩ := line_settles alone.isLine alone.parses (between.floor opened) between.empty
      between.undeclared.rules tokens
    exact ⟨q, taken, settles, plain, fun _ _ _ => trivial⟩

/-- The lines of a bracket are read one after the other. -/
theorem run_lines {origin : Origin} {line : List Token} {lines : List (List Token)} {trees : List Tree}
    {token : Token} {xs : List Lexeme} (opened : Opened base) (cuts : Cuts base symbol token) (more : token ≠ .eof)
    (first : Alone origin line t) (alone : List.Forall₂ (Alone origin) lines trees)
    (between : Between base symbol items p)
    (tokens : xs.map Lexeme.token = line ++ lines.flatMap (token :: ·)) :
    ∃ q, (∀ rest, p.run (xs.map .ok ++ rest) = q.run rest) ∧ Ends base (joined items (inSequence t trees)) q ∧
      (inSequence t trees).isComma = false :=
  run_items (readsItems_lines opened) opened cuts more first alone between trivial tokens

/-! ### A definition -/

/-- The rule of definitions. -/
def equals : Rule :=
  .infixOp "=" 2 .none .define

/-- The state behind the sign of the first definition of a source. -/
structure Defines (name : String) (p : Parser) : Prop where
  pending : ∃ sign place source : Tag, sign.text = "=" ∧ place.text = name ∧
    p.pending = [.infixed equals sign (.name place), .leading fileRule source]
  layout : p.layout = [.block 0]
  started : p.started = true

variable {name : String} {origin : Origin}

/-- The symbol of an operator first reduces what binds tighter, and then waits itself. -/
theorem Undeclared.shiftInfix (u : p.Undeclared) (listed : rule ∈ defaultRules) (start : rule.prior = none)
    (between : rule.fixity = .infixOp) (behind : p.operand.isSome = true) (span : Span) :
    p.shift (.operator rule.symbol) span =
      (do return (← p.reduceLeft rule (p.tag rule.symbol span)).push rule (p.tag rule.symbol span)) := by
  have some : p.operand.isNone = false := by simpa using behind
  refine (u.shiftOperator listed span).trans ?_
  simp only [Parser.shiftOperator, shiftInner, between, start, some, Bool.false_eq_true, reduceCtorEq, if_false]

theorem run_equals (origin : Origin) (plain : ∀ rule ∈ defaultRules, rule.symbol ≠ name) {xs : List Lexeme}
    (tokens : xs.map Lexeme.token = [.newline 0, .name name, .operator "="]) :
    ∃ p, (∀ rest, (start .default origin).run (xs.map .ok ++ rest) = p.run rest) ∧ Defines name p ∧
      p.operand = none ∧ p.Undeclared := by
  obtain ⟨⟨_, margin⟩, ys, rfl, rfl, behind⟩ := List.map_eq_cons_iff.1 tokens
  obtain ⟨⟨_, place⟩, zs, rfl, rfl, last⟩ := List.map_eq_cons_iff.1 behind
  obtain ⟨⟨_, sign⟩, rfl, rfl⟩ := List.map_eq_singleton_iff.1 last
  let p : Parser := { begun origin with operand := some (.name ⟨name, place, origin⟩) }
  have u : p.Undeclared := ⟨(begun_undeclared origin).rules, (begun_undeclared origin).words⟩
  have first : (start .default origin).shift (.newline 0) margin = .ok (begun origin) := shift_first ..
  have named : (begun origin).shift (.name name) place = .ok p :=
    (begun_undeclared origin).shiftName (Registry.default_lookup_operand plain) place
  have signed : p.shift (.operator "=") sign = .ok (p.push equals ⟨"=", sign, origin⟩) := by
    have listed : equals ∈ defaultRules := by decide +kernel
    have reduced : p.reduceLeft equals ⟨"=", sign, origin⟩ = .ok p := reduceLeft_opener rfl rfl _ _
    refine (u.shiftInfix listed rfl rfl rfl sign).trans ?_
    change (do return (← p.reduceLeft equals ⟨"=", sign, origin⟩).push equals ⟨"=", sign, origin⟩) = _
    rw [reduced]
    rfl
  have pending : (p.push equals ⟨"=", sign, origin⟩).pending =
      [.infixed equals ⟨"=", sign, origin⟩ (.name ⟨name, place, origin⟩),
        .leading fileRule ⟨"", Span.origin, origin⟩] :=
    rfl
  refine ⟨p.push equals ⟨"=", sign, origin⟩, fun rest => ?_, ⟨⟨_, _, _, rfl, rfl, pending⟩, rfl, rfl⟩, rfl,
    u.rules, ?_⟩
  · simp only [List.map_cons, List.map_nil, List.cons_append, List.nil_append]
    rw [run_ok Token.noConfusion first, run_ok Token.noConfusion named, run_ok Token.noConfusion signed]
  · exact List.forall_mem_cons.2 ⟨fun kind => Reduction.noConfusion, u.words⟩

/-- The end of the source ends the definition. -/
theorem Defines.finish {body : Tree} (defines : Defines name p) (operand : p.operand = some body) (stop : Span) :
    ∃ sign place q, p.finish stop = .ok (.define sign (.name place) body, q) ∧ sign.text = "=" ∧ place.text = name := by
  obtain ⟨sign, place, source, signed, named, here⟩ := defines.pending
  let r : Parser := { p with
    operand := some (.define sign (.name place) body), pending := [.leading fileRule source] }
  have blocks : closeBlocks (fun _ => true) stop p p.layout = .ok p := by
    rw [defines.layout]
    rfl
  have dropped : p.dropSeparators = p := dropSeparators_some (by rw [operand]; rfl)
  have made : p.reduceTop (.infixed equals sign (.name place)) [.leading fileRule source] body = .ok r :=
    reduceTop_infixed rfl rfl p sign (.name place) body _
  have reduced : p.reduceToOpener = .ok r :=
    (reduceToOpener_step here rfl operand made).trans (reduceToOpener_opener rfl rfl)
  refine ⟨sign, place, { r with operand := none, pending := [] }, ?_, signed, named⟩
  simp only [Parser.finish, blocks, dropped, reduced, bind, Except.bind]
  rfl

/-- A bracket has been opened behind the state `p`. -/
structure Enters (p : Parser) (rule : Rule) (margin : Layout) (base : Parser) : Prop where
  pending : ∃ tag, base.pending = .leading rule tag :: p.pending
  layout : base.layout = margin :: p.layout
  empty : base.operand = none
  started : base.started = p.started
  undeclared : base.Undeclared

theorem Enters.opened {margin : Layout} (enters : Enters p rule margin base) (opens : rule.isOpener = true) :
    Opened base := by
  obtain ⟨tag, here⟩ := enters.pending
  exact ⟨⟨_, _, here, opens⟩, enters.empty, enters.undeclared⟩

/-- The bracket has become the body of the definition, whatever closes it. -/
structure Body (name : String) (t : Tree) (p : Parser) : Prop where
  defines : Defines name p
  operand : ∃ body, p.operand = some body ∧ body.unlocated = t.unlocated

theorem Enters.ends {margin : Layout} (enters : Enters p rule margin base) (opens : rule.isOpener = true)
    (defines : Defines name p) (ends : Ends base t q) (plain : t.isComma = false) :
    ∃ opening body r q', q.reduceToOpener = .ok r ∧
      (∀ closing, r.popBracket closing = .ok (some body, .leading rule opening, q')) ∧ body.isComma = false ∧
        Body name t { q'.leaveScope with operand := some body } := by
  obtain ⟨opening, here⟩ := enters.pending
  obtain ⟨r, reduced, joined⟩ := ends.joins
  obtain ⟨body, operand, agrees⟩ := joined.operand
  have pending : r.pending = .leading rule opening :: p.pending := joined.pending.trans here
  refine ⟨opening, body, r, { r with operand := none, pending := p.pending }, reduced, fun closing => ?_, ?_,
    ⟨defines.pending, ?_, ?_⟩, body, rfl, agrees⟩
  · simp [popBracket, pending, operand, Pending.leading, opens]
  · rw [← Tree.isComma_unlocated, agrees, Tree.isComma_unlocated, plain]
  · simp only [leaveScope, joined.layout, enters.layout, List.tail_cons, defines.layout]
  · simp only [leaveScope, joined.started, enters.started, defines.started]

theorem ofBracket_plain {kind : BracketKind} (makes : kind = .paren ∨ kind = .block) (plain : t.isComma = false)
    (opening closing : Tag) : Tree.ofBracket kind opening closing (some t) false = .ok t := by
  rcases makes with rfl | rfl
  all_goals cases t <;> first
    | rfl
    | cases plain

/-! ### Indentation -/

/-- A deeper line opens a block. -/
theorem shiftNewline_enters {width : Nat} (defines : Defines name p) (empty : p.operand = none) (u : p.Undeclared)
    (deeper : 0 < width) (even : width % 2 = 0) (span : Span) :
    ∃ base, p.shift (.newline width) span = .ok base ∧ Enters p blockRule (.block width) base := by
  have here : (p.openBlock width span).pending = .leading blockRule (p.tag "indentation" span) :: p.pending := by
    simp [openBlock, openBracket, push, empty, Pending.leading]
  refine ⟨p.openBlock width span, ?_, ⟨_, here⟩, rfl, rfl, rfl, u.rules, ?_⟩
  · simp only [shift, shiftNewline, defines.layout, defines.started, Bool.not_true, Bool.false_eq_true, if_false]
    simp [empty, deeper, even]
  · rw [here]
    exact List.forall_mem_cons.2 ⟨fun kind => Reduction.noConfusion, u.words⟩

/-- A line of the same indentation is one more line of the block. -/
theorem cuts_newline {width : Nat} (enters : Enters p blockRule (.block width) base) (defines : Defines name p) :
    Cuts base "newline" (.newline width) := by
  intro q span present u layout started
  refine ⟨q.tag "newline" span, ?_⟩
  have here : q.layout = [.block width, .block 0] := by rw [layout, enters.layout, defines.layout]
  have begun : q.started = true := by rw [started, enters.started, defines.started]
  have blocks : closeBlocks (width < ·) span q [.block width, .block 0] = .ok q := by
    simp [closeBlocks]
  simp only [shift, shiftNewline, here, begun, blocks, Bool.not_true, Bool.false_eq_true, Nat.lt_irrefl, if_false,
    bind, Except.bind]
  simp only [List.head?_cons, ne_eq, not_true, if_false, present, if_true]
  rfl

/-- The end of the source ends the block. -/
theorem Enters.closeBlock {width : Nat} (enters : Enters p blockRule (.block width) base) (defines : Defines name p)
    (ends : Ends base t q) (plain : t.isComma = false) (stop : Span) :
    ∃ r, q.closeBlock stop = .ok r ∧ Body name t r := by
  obtain ⟨opening, body, r, q', reduced, popped, plain, result⟩ := enters.ends rfl defines ends plain
  refine ⟨_, ?_, result⟩
  have made := ofBracket_plain (.inr rfl) plain opening (r.tag "dedent" stop)
  simp only [Parser.closeBlock, dropSeparators_some ends.present, reduced, popped, bind, Except.bind, Pending.leading,
    putBracket, made]
  rfl

/-- The end of the source ends the block first. -/
theorem finish_block {width : Nat} {stop : Span} (layout : q.layout = [.block width, .block 0])
    (closed : q.closeBlock stop = .ok r) (outer : r.layout = [.block 0]) : q.finish stop = r.finish stop := by
  have blocks : closeBlocks (fun _ => true) stop q q.layout = closeBlocks (fun _ => true) stop r r.layout := by
    rw [layout, outer, closeBlocks, if_pos rfl, closed]
    rfl
  rw [Parser.finish, blocks, Parser.finish]

/-! ### Parentheses -/

/-- The rules of parentheses. -/
def openParen : Rule :=
  .opening "(" ")" .paren

def closeParen : Rule :=
  .closing ")" "(" .paren

theorem parens_listed : openParen ∈ defaultRules ∧ closeParen ∈ defaultRules ∧ separator ";" ∈ defaultRules := by
  decide +kernel

theorem shiftParen_enters (empty : p.operand = none) (u : p.Undeclared) (span : Span) :
    ∃ base, p.shift (.operator "(") span = .ok base ∧ Enters p openParen .explicit base := by
  have here : (p.openBracket openParen (p.tag "(" span)).pending =
      .leading openParen (p.tag "(" span) :: p.pending := by
    simp [openBracket, push, empty, Pending.leading]
  refine ⟨p.openBracket openParen (p.tag "(" span), ?_, ⟨_, here⟩, rfl, rfl, rfl, u.rules, ?_⟩
  · have opens : openParen.fixity = .opening := rfl
    refine (u.shiftOperator parens_listed.1 span).trans ?_
    simp only [Parser.shiftOperator, opens, separateOperands_none empty]
    rfl
  · rw [here]
    exact List.forall_mem_cons.2 ⟨fun kind => Reduction.noConfusion, u.words⟩

theorem cuts_semicolon (base : Parser) : Cuts base ";" (.operator ";") :=
  fun _ span present u _ _ => ⟨_, u.shiftInfix parens_listed.2.2 rfl rfl present span⟩

theorem Enters.closeParen (enters : Enters p openParen .explicit base) (defines : Defines name p)
    (ends : Ends base t q) (plain : t.isComma = false) (span : Span) :
    ∃ r, q.shift (.operator ")") span = .ok r ∧ Body name t r := by
  obtain ⟨opening, body, r, q', reduced, popped, plain, result⟩ := enters.ends rfl defines ends plain
  refine ⟨_, (ends.undeclared.shiftOperator parens_listed.2.1 span).trans ?_, result⟩
  have made := ofBracket_plain (.inl rfl) plain opening (q.tag ")" span)
  have partner : openParen.partner = some Parser.closeParen.symbol := rfl
  have kind : openParen.bracketKind = some .paren := rfl
  change q.closeBracket Parser.closeParen (q.tag ")" span) = _
  simp only [closeBracket, completes_some ends.present, reduced, popped, bind, Except.bind, Pending.leading, partner,
    kind, if_true, Option.getD_some, putBracket, made]

/-! ### Blocks and parentheses -/

/-- The tokens of a definition whose body is in lines of this indentation. -/
def inBlock (name : String) (width : Nat) (lines : List (List Token)) : List Token :=
  [.newline 0, .name name, .operator "="] ++ lines.flatMap (.newline width :: ·) ++ [.eof]

/-- The tokens of the same definition on one line. -/
def inParens (name : String) (lines : List (List Token)) : List Token :=
  [.newline 0, .name name, .operator "="] ++ .operator "(" :: [.operator ";"].intercalate lines ++ [.operator ")", .eof]

theorem Body.finish (body : Body name t p) (stop : Span) :
    ∃ t' q, p.finish stop = .ok (t', q) ∧
      t'.unlocated = (Tree.define (.synthetic "=") (.name (.synthetic name)) t).unlocated := by
  obtain ⟨content, operand, agrees⟩ := body.operand
  obtain ⟨sign, place, q, finished, signed, named⟩ := body.defines.finish operand stop
  refine ⟨_, q, finished, ?_⟩
  simp only [Tree.unlocated, agrees, Tag.unlocated, signed, named, Tag.synthetic]

variable {width : Nat} {line : List Token} {lines : List (List Token)} {trees : List Tree} {xs ys : List Lexeme}

theorem run_inBlock (plain : ∀ rule ∈ defaultRules, rule.symbol ≠ name) (deeper : 0 < width) (even : width % 2 = 0)
    (first : Alone origin line t) (alone : List.Forall₂ (Alone origin) lines trees)
    (tokens : xs.map Lexeme.token = inBlock name width (line :: lines)) :
    ∃ t' q, (start .default origin).run (xs.map .ok) = .ok (t', q) ∧
      t'.unlocated = (Tree.define (.synthetic "=") (.name (.synthetic name)) (inSequence t trees)).unlocated := by
  obtain ⟨front, last, rfl, front_, last_⟩ := List.map_eq_append_iff.1 tokens
  obtain ⟨⟨_, stop⟩, rfl, rfl⟩ := List.map_eq_singleton_iff.1 last_
  obtain ⟨head, body, rfl, head_, body_⟩ := List.map_eq_append_iff.1 front_
  obtain ⟨⟨_, margin⟩, body, rfl, rfl, behind⟩ := List.map_eq_cons_iff.1 body_
  obtain ⟨p, ran, defines, empty, u⟩ := run_equals origin plain head_
  obtain ⟨base, shifted, enters⟩ := shiftNewline_enters defines empty u deeper even margin
  have opened := enters.opened rfl
  obtain ⟨q, ran', ends, plain⟩ := run_lines opened (cuts_newline enters defines) Token.noConfusion first alone
    (opened.between "newline") behind
  obtain ⟨r, closed, result⟩ := enters.closeBlock defines ends plain stop
  obtain ⟨t', behind, finished, agrees⟩ := result.finish stop
  have layout : q.layout = [.block width, .block 0] := by rw [ends.layout, enters.layout, defines.layout]
  refine ⟨t', behind, ?_, agrees⟩
  rw [List.map_append, List.map_append, List.append_assoc, ran, List.map_cons, List.cons_append,
    run_ok Token.noConfusion shifted, ran']
  exact (finish_block layout closed result.defines.layout).trans finished

/-- Separators between items stand in front of all but the first. -/
theorem intercalate_flatMap {α : Type} (separator item : List α) (items : List (List α)) :
    separator.intercalate (item :: items) = item ++ items.flatMap (separator ++ ·) := by
  induction items generalizing item with
  | nil => simp
  | cons next items ih =>
    rw [List.intercalate_cons_of_ne_nil (List.cons_ne_nil _ _), ih, List.flatMap_cons, List.append_assoc,
      List.append_assoc]

theorem run_inParens (plain : ∀ rule ∈ defaultRules, rule.symbol ≠ name)
    (first : Alone origin line t) (alone : List.Forall₂ (Alone origin) lines trees)
    (tokens : xs.map Lexeme.token = inParens name (line :: lines)) :
    ∃ t' q, (start .default origin).run (xs.map .ok) = .ok (t', q) ∧
      t'.unlocated = (Tree.define (.synthetic "=") (.name (.synthetic name)) (inSequence t trees)).unlocated := by
  obtain ⟨front, last, rfl, front_, last_⟩ := List.map_eq_append_iff.1 tokens
  obtain ⟨⟨_, closing⟩, last, rfl, rfl, stop_⟩ := List.map_eq_cons_iff.1 last_
  obtain ⟨⟨_, stop⟩, rfl, rfl⟩ := List.map_eq_singleton_iff.1 stop_
  obtain ⟨head, body, rfl, head_, body_⟩ := List.map_eq_append_iff.1 front_
  obtain ⟨⟨_, opening⟩, body, rfl, rfl, behind⟩ := List.map_eq_cons_iff.1 body_
  rw [intercalate_flatMap] at behind
  obtain ⟨p, ran, defines, empty, u⟩ := run_equals origin plain head_
  obtain ⟨base, shifted, enters⟩ := shiftParen_enters empty u opening
  have opened := enters.opened rfl
  obtain ⟨q, ran', ends, plain⟩ := run_lines opened (cuts_semicolon base) Token.noConfusion first alone
    (opened.between ";") behind
  obtain ⟨r, closed, result⟩ := enters.closeParen defines ends plain closing
  obtain ⟨t', behind, finished, agrees⟩ := result.finish stop
  refine ⟨t', behind, ?_, agrees⟩
  rw [List.map_append, List.map_append, List.append_assoc, ran, List.map_cons, List.cons_append,
    run_ok Token.noConfusion shifted, ran', List.map_cons, run_ok Token.noConfusion closed]
  exact finished

theorem exists_alone (isLines : ∀ line ∈ lines, IsLine line)
    (parses : ∀ line ∈ lines, ∃ t, Parses origin (.newline 0 :: line ++ [.eof]) t) :
    ∃ trees, List.Forall₂ (Alone origin) lines trees := by
  induction lines with
  | nil => exact ⟨[], .nil⟩
  | cons line lines ih =>
    rw [List.forall_mem_cons] at isLines parses
    obtain ⟨t, parsed⟩ := parses.1
    obtain ⟨trees, alone⟩ := ih isLines.2 parses.2
    exact ⟨t :: trees, .cons ⟨isLines.1, parsed⟩ alone⟩

/-- Lines of a block and the same lines between parentheses, with semicolons instead of line breaks, are the same tree,
if each line is a source of its own: the definition of a sequence of what the lines are alone. The lexer puts the
indentation of the first line in front of its tokens. -/
theorem block_parens (plain : ∀ rule ∈ defaultRules, rule.symbol ≠ name) (deeper : 0 < width) (even : width % 2 = 0)
    (some : lines ≠ []) (isLines : ∀ line ∈ lines, IsLine line)
    (parses : ∀ line ∈ lines, ∃ t, Parses origin (.newline 0 :: line ++ [.eof]) t)
    (block : xs.map Lexeme.token = inBlock name width lines)
    (parens : ys.map Lexeme.token = inParens name lines) :
    ∃ t t' q q', (start .default origin).run (xs.map .ok) = .ok (t, q) ∧
      (start .default origin).run (ys.map .ok) = .ok (t', q') ∧ t'.unlocated = t.unlocated ∧
      ∃ first rest, List.Forall₂ (fun line t => Parses origin (.newline 0 :: line ++ [.eof]) t) lines (first :: rest) ∧
        t.unlocated = (Tree.define (.synthetic "=") (.name (.synthetic name)) (inSequence first rest)).unlocated := by
  obtain ⟨trees, alone⟩ := exists_alone isLines parses
  cases alone with
  | nil => exact (some rfl).elim
  | @cons line first lines rest head tail =>
    obtain ⟨t, q, ran, agrees⟩ := run_inBlock plain deeper even head tail block
    obtain ⟨t', q', ran', agrees'⟩ := run_inParens plain head tail parens
    exact ⟨t, t', q, q', ran, ran', agrees'.trans agrees.symm, first, rest,
      .cons head.parses (tail.imp fun _ _ alone => alone.parses), agrees⟩

theorem exists_parses (xs : List Lexeme) (accepted : ((start .default origin).run (xs.map .ok)).toOption.isSome = true) :
    ∃ t, Parses origin (xs.map Lexeme.token) t := by
  obtain ⟨result, ran⟩ := exists_ok accepted
  exact ⟨result.1, xs, result.2, rfl, ran⟩

theorem block_parens_two : ∃ t t' q q', parseUnder .default .module "f =\n  a\n  b + 1" = .ok (t, q) ∧
    parseUnder .default .module "f = (a; b + 1)" = .ok (t', q') ∧ t'.unlocated = t.unlocated ∧
      ∃ first rest, List.Forall₂ (fun line t => Parses .module (.newline 0 :: line ++ [.eof]) t)
          [[.name "a"], [.name "b", .operator "+", .int 1]] (first :: rest) ∧
        t.unlocated = (Tree.define (.synthetic "=") (.name (.synthetic "f")) (inSequence first rest)).unlocated := by
  let lines : List (List Token) := [[.name "a"], [.name "b", .operator "+", .int 1]]
  obtain ⟨xs, block, tokens⟩ : ∃ xs : List Lexeme, lexemes "f =\n  a\n  b + 1" = xs.map .ok ∧
      xs.map Lexeme.token = inBlock "f" 2 lines :=
    ⟨[⟨.newline 0, ⟨0, 0⟩⟩, ⟨.name "f", ⟨0, 1⟩⟩, ⟨.operator "=", ⟨2, 3⟩⟩, ⟨.newline 2, ⟨6, 6⟩⟩, ⟨.name "a", ⟨6, 7⟩⟩,
      ⟨.newline 2, ⟨10, 10⟩⟩, ⟨.name "b", ⟨10, 11⟩⟩, ⟨.operator "+", ⟨12, 13⟩⟩, ⟨.int 1, ⟨14, 15⟩⟩,
      ⟨.eof, ⟨15, 15⟩⟩], by decide +kernel, rfl⟩
  obtain ⟨ys, parens, tokens'⟩ : ∃ ys : List Lexeme, lexemes "f = (a; b + 1)" = ys.map .ok ∧
      ys.map Lexeme.token = inParens "f" lines :=
    ⟨[⟨.newline 0, ⟨0, 0⟩⟩, ⟨.name "f", ⟨0, 1⟩⟩, ⟨.operator "=", ⟨2, 3⟩⟩, ⟨.operator "(", ⟨4, 5⟩⟩, ⟨.name "a", ⟨5, 6⟩⟩,
      ⟨.operator ";", ⟨6, 7⟩⟩, ⟨.name "b", ⟨8, 9⟩⟩, ⟨.operator "+", ⟨10, 11⟩⟩, ⟨.int 1, ⟨12, 13⟩⟩,
      ⟨.operator ")", ⟨13, 14⟩⟩, ⟨.eof, ⟨14, 14⟩⟩], by decide +kernel, rfl⟩
  have plain : ∀ rule ∈ defaultRules, rule.symbol ≠ "f" := by decide +kernel
  have isLines : ∀ line ∈ lines, IsLine line := by
    refine List.forall_mem_cons.2 ⟨?_, List.forall_mem_singleton.2 ?_⟩
    all_goals exact ⟨List.cons_ne_nil _ _, by simp, by decide +kernel, by decide +kernel⟩
  have parses : ∀ line ∈ lines, ∃ t, Parses .module (.newline 0 :: line ++ [.eof]) t := by
    refine List.forall_mem_cons.2 ⟨?_, List.forall_mem_singleton.2 ?_⟩
    · exact exists_parses [⟨.newline 0, ⟨0, 0⟩⟩, ⟨.name "a", ⟨0, 1⟩⟩, ⟨.eof, ⟨1, 1⟩⟩] (by decide +kernel)
    · exact exists_parses [⟨.newline 0, ⟨0, 0⟩⟩, ⟨.name "b", ⟨0, 1⟩⟩, ⟨.operator "+", ⟨2, 3⟩⟩, ⟨.int 1, ⟨4, 5⟩⟩,
        ⟨.eof, ⟨5, 5⟩⟩] (by decide +kernel)
  rw [parseUnder, parseUnder, block, parens]
  exact block_parens plain (by decide) rfl (List.cons_ne_nil _ _) isLines parses tokens tokens'

end Parser

end MixfixLambda
