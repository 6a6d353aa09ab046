import MixfixLambda.Proofs.Parse.Waiting
import MixfixLambda.Proofs.Token.Lexical

/-!
# Sources without declarations make trees of the default grammar

Every token keeps what `Sound` says of the parser, and at the end of the source the tree that is left is
one of the default grammar.
-/
namespace MixfixLambda.Parser

variable {p q free : Parser} {top : Pending} {below : List Pending}

/-- What holds between the tokens of a source without declarations. -/
structure Sound (p : Parser) : Prop where
  rules : p.registry.entries = Registry.default.entries
  waiting : Waiting p.pending
  operand : ∀ t ∈ p.operand, t.Standard

theorem Reduced.sound {separated : Prop} (s : Sound p) (reduced : Reduced p separated q)
    (loose : ¬separated) : Sound q ∧ q.operand.isSome = true := by
  obtain ⟨t, here, made⟩ := reduced.operand
  have standard : t.Standard := made.resolve_right fun commas => loose commas.1
  refine ⟨⟨?_, reduced.waiting, fun other found => ?_⟩, by rw [here]; rfl⟩
  · rw [reduced.registry, s.rules]
  · rw [here] at found
    cases found
    exact standard

/-- An operator this loose is a separator. -/
theorem Waiting.separator (waiting : Waiting (top :: below)) (operator : top.rule.isOpener = false)
    (tight : top.rule.right ≤ 1) : ∃ rule ∈ breaks, ∃ tag left, top = .infixed rule tag left ∧
      rule.right = 1 ∧ rule.assoc = .right ∧ Founded below := by
  cases waiting with
  | opener tag opens =>
    have brackets : ∀ rule ∈ openers, rule.isOpener = true := by decide
    rw [show (Pending.leading _ tag).rule.isOpener = true from brackets _ opens] at operator
    cases operator
  | leading leads =>
    have loose : ∀ rule ∈ prefixes, ¬rule.right ≤ 1 := by decide
    exact absurd tight (loose _ leads)
  | @infixed rule tag left _ infixes _ _ founded =>
    rcases infixes.facts.2.2 with ⟨separates, one, right⟩ | ⟨loose, -⟩
    · exact ⟨rule, separates, tag, left, rfl, one, right, founded one⟩
    · exact absurd tight (Nat.not_le.2 loose)
  | headless listed sections =>
    have loose : ∀ rule ∈ defaultRules, rule.isSectionable = true → ¬rule.right ≤ 1 := by decide +kernel
    exact absurd tight (loose _ listed sections)

theorem founded_cons : Founded (top :: below) ↔ top.rule.right ≤ 1 := by
  simp [Founded]

theorem Waiting.opener_inv (waiting : Waiting (top :: below)) (opens : top.rule.isOpener = true) :
    ∃ rule ∈ openers, ∃ tag, top = .leading rule tag ∧ rule.right = 0 := by
  cases waiting with
  | @opener rule _ tag opener =>
    have zero : ∀ rule ∈ openers, rule.right = 0 := by decide
    exact ⟨rule, opener, tag, rfl, zero rule opener⟩
  | leading leads =>
    have no : ∀ rule ∈ prefixes, rule.isOpener = false := by decide
    exact absurd opens (Bool.eq_false_iff.1 (no _ leads))
  | infixed infixes =>
    have between := infixes.facts.1
    simp [Pending.infixed, Pending.leading, Rule.isOpener, between] at opens
  | headless _ sections => exact absurd opens (Bool.eq_false_iff.1 (not_separator sections).2)

/-- What does not give way to the loosest operators is a separator itself. -/
theorem founded_of_stays {incoming : Rule} {tag : Tag} (least : incoming.left = 1)
    (stays : p.bindsTighter top incoming tag = .ok false) : Founded (top :: below) := by
  rw [founded_cons]
  unfold bindsTighter at stays
  split at stays
  · rw [Except.ok.injEq, decide_eq_false_iff_not, least] at stays
    omega
  · next same =>
    rw [Decidable.not_not, least] at same
    omega

/-- No incoming operator reduces a separator. -/
theorem separator_stays {incoming : Rule} {tag : Tag} (right : top.rule.assoc = .right)
    (one : top.rule.right = 1) (least : 1 ≤ incoming.left) :
    p.bindsTighter top incoming tag ≠ .ok true := by
  intro tighter
  unfold bindsTighter at tighter
  split at tighter
  · rw [Except.ok.injEq, decide_eq_true_eq, one] at tighter
    omega
  · rw [right] at tighter
    split at tighter
    · next left _ => cases left
    · cases tighter
    · cases tighter

theorem reduceLeft_sound {incoming : Rule} {tag : Tag} (s : Sound p) (present : p.operand.isSome = true)
    (least : 1 ≤ incoming.left) (ok : p.reduceLeft incoming tag = .ok q) :
    Sound q ∧ q.operand.isSome = true ∧ (incoming.left = 1 → Founded q.pending) := by
  fun_induction reduceLeft p incoming tag with
  | case1 p _ top below here _ opens =>
    cases ok
    refine ⟨s, present, fun _ => ?_⟩
    have waiting := s.waiting
    rw [here] at waiting ⊢
    obtain ⟨rule, -, tag, rfl, zero⟩ := waiting.opener_inv opens
    exact founded_cons.2 (Nat.le_succ_of_le (Nat.le_of_eq zero))
  | case2 | case4 | case5 => cases ok
  | case3 p _ top below here _ _ stays =>
    cases ok
    refine ⟨s, present, fun one => ?_⟩
    rw [here]
    exact founded_of_stays one stays
  | case6 p right top below here operand closed tighter present' q' reduced ih =>
    have waiting := s.waiting
    rw [here] at waiting
    have operator := Bool.eq_false_iff.2 closed
    rcases reduceTop_reduced waiting operator (.inl (s.operand right operand)) reduced with
      ⟨reduction, -⟩ | ⟨-, missing⟩
    · have loose : top.rule.right ≠ 1 := by
        intro one
        obtain ⟨rule, -, _, _, rfl, -, right, -⟩ := waiting.separator operator (Nat.le_of_eq one)
        exact separator_stays right one least tighter
      obtain ⟨s', some'⟩ := reduction.sound s loose
      exact ih s' some' ok
    · exact absurd missing present'
  | case7 p empty =>
    obtain rfl := Except.ok.inj ok
    refine ⟨s, present, fun _ top found => ?_⟩
    obtain ⟨right, operand⟩ := Option.isSome_iff_exists.1 present
    cases here : p.pending with
    | nil =>
      rw [here] at found
      cases found
    | cons top below => exact (empty right top below operand here).elim

/-- A chain is not continued across a separator, and not across the edge of a section. -/
theorem reduceToPrior_founded {prior : String} {tag : Tag} (waiting : Waiting p.pending)
    (founded : Founded p.pending) (part : prior = "if" ∨ prior = "then")
    (operand : ∀ t ∈ p.operand, t.Standard ∨ Tree.Commas t) : p.reduceToPrior prior tag ≠ .ok q := by
  intro ok
  fun_induction reduceToPrior p prior tag with
  | case1 | case3 | case5 => cases ok
  | case2 p right top below here _ closed same =>
    rw [here] at waiting founded
    obtain ⟨rule, separates, _, _, rfl, -⟩ :=
      waiting.separator (Bool.eq_false_iff.2 closed) (founded_cons.1 founded)
    have others : ∀ rule ∈ breaks, rule.symbol ≠ "if" ∧ rule.symbol ≠ "then" := by decide
    rcases part with rfl | rfl
    · exact (others rule separates).1 same
    · exact (others rule separates).2 same
  | case4 p right top below here found closed _ q' reduced ih =>
    rw [here] at waiting founded
    have operator := Bool.eq_false_iff.2 closed
    have tight := founded_cons.1 founded
    obtain ⟨rule, -, _, _, rfl, one, -⟩ := waiting.separator operator tight
    rcases reduceTop_reduced waiting operator ((operand right found).imp_right fun commas => ⟨tight, commas⟩)
      reduced with ⟨reduction, -⟩ | ⟨-, missing⟩
    · obtain ⟨t, here', made⟩ := reduction.operand
      refine ih reduction.waiting (reduction.founded one) (fun other same => ?_) ok
      rw [here'] at same
      cases same
      exact made.imp_right And.right
    · cases missing

theorem reduceToPrior_opener {prior : String} {tag : Tag} (here : p.pending = top :: below)
    (opens : top.rule.isOpener = true) : p.reduceToPrior prior tag ≠ .ok q := by
  intro ok
  rw [reduceToPrior.eq_def] at ok
  split at ok
  · next found =>
    rw [here] at found
    cases found
    rw [if_pos opens] at ok
    cases ok
  · cases ok

theorem reduceToPrior_sound {prior : String} {tag : Tag} (s : Sound p)
    (present : p.operand.isSome = true) (part : prior = "if" ∨ prior = "then")
    (ok : p.reduceToPrior prior tag = .ok q) : Sound q ∧ q.operand.isSome = true := by
  fun_induction reduceToPrior p prior tag with
  | case1 | case3 | case5 => cases ok
  | case2 =>
    obtain rfl := Except.ok.inj ok
    exact ⟨s, present⟩
  | case4 p right top below here found closed _ q' reduced ih =>
    have waiting := s.waiting
    rw [here] at waiting
    rcases reduceTop_reduced waiting (Bool.eq_false_iff.2 closed) (.inl (s.operand right found))
      reduced with ⟨reduction, -⟩ | ⟨⟨_, _, _, _, _, _, rfl⟩, -⟩
    · by_cases one : top.rule.right = 1
      · obtain ⟨t, here', made⟩ := reduction.operand
        refine absurd ok (reduceToPrior_founded reduction.waiting (reduction.founded one) part ?_)
        intro other same
        rw [here'] at same
        cases same
        exact made.imp_right And.right
      · obtain ⟨s', present'⟩ := reduction.sound s one
        exact ih s' present' ok
    · exact absurd ok (reduceToPrior_opener rfl rfl)

/-! ### Brackets -/

/-- A bracket that is reduced waits for its closing one, which makes a tree of the default grammar. -/
structure Emptied (p q : Parser) : Prop where
  registry : q.registry = p.registry
  opener : ∃ top below, q.pending = top :: below ∧ top.rule ∈ openers ∧ Waiting below ∧
    ∀ closing t, Tree.ofBracket (top.rule.bracketKind.getD .paren) top.tag closing q.operand top.sectioned =
      .ok t → t.Standard

theorem listed_of_plain {t : Tree} (plain : t.isComma = false) : Tree.listed (some t) = [t] := by
  cases t <;> first
    | rfl
    | cases plain

/-- Of one item, parentheses and blocks leave only the item. -/
theorem ofBracket_of_plain {kind : BracketKind} {t : Tree} (plain : t.isComma = false)
    (unlisted : kind ∈ [.paren, .block, .file]) (opening closing : Tag) :
    Tree.ofBracket kind opening closing (some t) false = .ok t := by
  fin_cases unlisted <;> cases t <;> first
    | rfl
    | cases plain

theorem listed_standard {content : Option Tree} (each : ∀ t ∈ content, t.Standard ∨ Tree.Commas t) :
    ∀ t ∈ Tree.listed content, t.Standard := by
  cases content with
  | none => simp [Tree.listed]
  | some item =>
    rcases each item rfl with standard | ⟨parts, span, rfl, -, eachPart⟩
    · rw [listed_of_plain standard.isComma_eq_false]
      exact fun t inside => List.mem_singleton.1 inside ▸ standard
    · exact eachPart

theorem ofBracket_item {kind : BracketKind} {opening closing : Tag} {content : Option Tree} {t : Tree}
    (unlisted : kind ∈ [.paren, .block, .file]) (each : ∀ t ∈ content, t.Standard ∨ Tree.Commas t)
    (ok : Tree.ofBracket kind opening closing content false = .ok t) : t.Standard := by
  cases content with
  | none =>
    have none : ∀ t ∈ ([] : List Tree), t.Standard := by simp
    fin_cases unlisted <;> cases ok
    · exact .unit _
    · exact .sequence none _
    · exact .sequence none _
  | some item =>
    rcases each item rfl with standard | ⟨parts, span, rfl, several, eachPart⟩
    · rw [ofBracket_of_plain standard.isComma_eq_false unlisted] at ok
      exact Except.ok.inj ok ▸ standard
    · fin_cases unlisted <;> cases ok
      exact .tuple eachPart several _

theorem ofBracket_standard {rule : Rule} {opening closing : Tag} {content : Option Tree} {t : Tree}
    (opens : rule ∈ openers) (each : ∀ t ∈ content, t.Standard ∨ Tree.Commas t)
    (ok : Tree.ofBracket (rule.bracketKind.getD .paren) opening closing content false = .ok t) :
    t.Standard := by
  have kinds : ∀ rule ∈ openers, rule.bracketKind.getD .paren ∈ [.paren, .block, .file] ∨
      rule.bracketKind.getD .paren = .square ∨ rule.bracketKind.getD .paren = .brace := by
    decide
  rcases kinds rule opens with unlisted | square | brace
  · exact ofBracket_item unlisted each ok
  · rw [square] at ok
    cases ok
    exact .list (listed_standard each) _
  · rw [brace] at ok
    cases ok
    exact .data (listed_standard each) _

theorem Sectioned.emptied {p' : Parser} (sectioned : Sectioned p' q) (same : p'.registry = p.registry) :
    Emptied p q := by
  obtain ⟨opening, below, body, standard, plain, rest, rfl⟩ := sectioned
  refine ⟨same, _, below, rfl, List.mem_cons_self .., rest, fun closing t ok => ?_⟩
  change Tree.ofBracket .paren opening closing (some body) true = .ok t at ok
  cases body <;> first
    | exact Except.ok.inj ok ▸ standard _
    | cases plain

theorem reduceToOpener_emptied (waiting : Waiting p.pending)
    (operand : ∀ t ∈ p.operand, t.Standard ∨ Founded p.pending ∧ Tree.Commas t)
    (ok : p.reduceToOpener = .ok q) : Emptied p q := by
  fun_induction reduceToOpener p with
  | case1 | case3 | case4 => cases ok
  | case2 p top below here opens =>
    obtain rfl := Except.ok.inj ok
    rw [here] at waiting
    obtain ⟨rule, opener, tag, rfl, -⟩ := waiting.opener_inv opens
    refine ⟨rfl, _, below, here, opener, waiting.tail, fun closing t made => ?_⟩
    exact ofBracket_standard opener (fun t found => (operand t found).imp_right And.right) made
  | case5 p top below here closed right found q' reduced ih =>
    rw [here] at waiting operand
    have tight := (operand right found).imp_right fun ⟨founded, commas⟩ =>
      (⟨founded_cons.1 founded, commas⟩ : top.rule.right ≤ 1 ∧ Tree.Commas right)
    rcases reduceTop_reduced waiting (Bool.eq_false_iff.2 closed) tight reduced with
      ⟨reduction, -⟩ | ⟨edge, -⟩
    · obtain ⟨t, here', made⟩ := reduction.operand
      have emptied : Emptied q' q := by
        refine ih reduction.waiting (fun other same => ?_) ok
        rw [here'] at same
        cases same
        exact made.imp_right fun ⟨one, commas⟩ => ⟨reduction.founded one, commas⟩
      exact ⟨emptied.registry.trans reduction.registry, emptied.opener⟩
    · have edge' := edge
      obtain ⟨_, _, _, -, -, -, rfl⟩ := edge'
      obtain rfl := Except.ok.inj ((reduceToOpener_opener rfl rfl).symm.trans ok)
      exact edge.emptied rfl

/-! ### Closing -/

theorem Waiting.left (waiting : Waiting (top :: below)) : ∀ t ∈ top.left, t.Standard := by
  cases waiting with
  | infixed _ _ operand =>
    rintro t found
    exact Option.some.inj found ▸ operand
  | _ => nofun

theorem eraseSeparators_sound {operand : Option Tree} {pending : List Pending} (waiting : Waiting pending)
    (standard : ∀ t ∈ operand, t.Standard) :
    Waiting (eraseSeparators operand pending).2 ∧ ∀ t ∈ (eraseSeparators operand pending).1, t.Standard := by
  fun_induction eraseSeparators operand pending with
  | case1 top below separates ih => exact ih waiting.tail waiting.left
  | case2 => exact ⟨waiting, standard⟩
  | case3 => exact ⟨waiting, standard⟩

theorem dropSeparators_sound (s : Sound p) : Sound p.dropSeparators :=
  have ⟨waiting, standard⟩ := eraseSeparators_sound s.waiting s.operand
  ⟨s.rules, waiting, standard⟩

theorem IsInfix.listed {rule : Rule} (infixes : IsInfix rule) (sections : rule.isSectionable = true) :
    rule ∈ defaultRules := by
  cases infixes with
  | operation listed => exact listed
  | separator separates =>
    have none : ∀ rule ∈ breaks, rule.isSectionable = false := by decide
    rw [none _ separates] at sections
    cases sections
  | _ => cases sections

/-- A section needs the parenthesis around it. -/
theorem Waiting.paren_inv (waiting : Waiting below) (parens : (below.head?).any Pending.isParen = true) :
    ∃ tag rest, below = paren tag :: rest ∧ Waiting rest := by
  cases below with
  | nil => cases parens
  | cons top rest =>
    simp only [List.head?_cons, Option.any_some, Pending.isParen, Bool.and_eq_true, beq_iff_eq] at parens
    obtain ⟨rule, opens, tag, rfl, -⟩ := waiting.opener_inv parens.1
    have one : ∀ rule ∈ openers, rule.bracketKind = some .paren → rule = .opening "(" ")" .paren := by decide
    obtain rfl := one rule opens parens.2
    exact ⟨tag, rest, rfl, waiting.tail⟩

theorem Sound.emptied (s : Sound p) (ok : p.reduceToOpener = .ok q) : Emptied p q :=
  reduceToOpener_emptied s.waiting (fun t found => .inl (s.operand t found)) ok

/-- The operator of a section whose right operand is left out. -/
theorem reduceToOpener_section {rule : Rule} {tag opening : Tag} {left : Tree} {missing : Span}
    (listed : rule ∈ defaultRules) (sections : rule.isSectionable = true) (named : tag.text = rule.symbol)
    (operand : left.Standard) (rest : Waiting below)
    (here : p.pending = .infixed rule tag left :: sectioned opening :: below)
    (supplied : p.operand = some (.placeholder missing)) (ok : p.reduceToOpener = .ok q) : Sectioned p q := by
  obtain ⟨between, start, operation⟩ := sectionable_facts sections
  rw [reduceToOpener_step here (not_separator sections).2 supplied (reduceTop_infixed start between ..),
    reduceToOpener_opener rfl rfl, operation] at ok
  exact ⟨opening, below, .infixOp tag left (.placeholder missing),
    .leftSection listed sections named operand, rfl, rest, (Except.ok.inj ok).symm⟩

/-- A bracket in front of which something was left out is reduced like one that holds everything. -/
theorem completeSection_emptied {completed : Parser} (s : Sound p) (ok : p.completeSection = .ok completed)
    (reduces : completed.reduceToOpener = .ok q) : Emptied p q := by
  unfold completeSection at ok
  split at ok
  · next top below empty here =>
    have waiting := s.waiting
    rw [here] at waiting
    dsimp only at ok
    split at ok
    · cases ok
      exact s.emptied reduces
    split at ok
    · next missing =>
      rw [Bool.and_eq_true] at missing
      let free : Parser := { p with operand := some (.name top.tag), pending := below }
      obtain rfl : free = completed := Except.ok.inj ok
      have standard : (Tree.name top.tag).Standard := by
        cases waiting with
        | headless listed sections named => exact .operator listed sections named
        | _ => cases missing.1
      have s' : Sound free := ⟨s.rules, waiting.tail, fun t found => Option.some.inj found ▸ standard⟩
      exact ⟨(s'.emptied reduces).registry, (s'.emptied reduces).opener⟩
    split at ok
    · next left =>
      simp only [Bool.and_eq_true, Bool.not_eq_true'] at left
      obtain ⟨⟨⟨sections, given⟩, present⟩, parens⟩ := left
      cases waiting with
      | opener => cases present
      | leading => cases present
      | headless => cases given
      | @infixed rule tag left _ infixes named operand _ rest =>
        obtain ⟨opening, rest, rfl, waiting⟩ := rest.paren_inv parens
        cases ok
        have edge := reduceToOpener_section (infixes.listed sections) sections named operand waiting rfl rfl
          reduces
        exact edge.emptied rfl
    · cases ok
  · cases ok
    exact s.emptied reduces

theorem popScope_entries {r : Registry} (same : r.entries = Registry.default.entries) :
    r.popScope.entries = Registry.default.entries := by
  unfold Registry.popScope
  split
  · exact same
  · next open_ =>
    refine Eq.trans ?_ same
    change r.entries.dropWhile _ = r.entries
    cases here : r.entries with
    | nil => rfl
    | cons e entries =>
      have inside : e ∈ Registry.default.entries := by
        rw [← same, here]
        exact List.mem_cons_self ..
      rw [List.dropWhile_cons_of_neg]
      rw [(Registry.mem_default_entries inside).1, beq_iff_eq]
      exact fun zero => open_ zero.symm

variable {closing : Tag} {content : Option Tree} {opener : Pending}

theorem Emptied.popped (s : Sound p) (emptied : Emptied p q)
    (popped : q.popBracket closing = .ok (content, opener, free)) :
    Sound free.leaveScope ∧ opener.rule ∈ openers ∧
      ∀ closing t, Tree.ofBracket (opener.rule.bracketKind.getD .paren) opener.tag closing content
        opener.sectioned = .ok t → t.Standard := by
  obtain ⟨top, below, here, opens, rest, makes⟩ := emptied.opener
  have brackets : ∀ rule ∈ openers, rule.isOpener = true := by decide
  rw [popBracket, here] at popped
  simp only [brackets _ opens, if_true] at popped
  cases popped
  have rules : q.registry.entries = Registry.default.entries := emptied.registry ▸ s.rules
  exact ⟨⟨popScope_entries rules, rest, by simp [leaveScope]⟩, opens, makes⟩

theorem putBracket_sound {kind : BracketKind} {sectioned : Bool} (s : Sound p)
    (makes : ∀ t, Tree.ofBracket kind opener.tag closing content sectioned = .ok t → t.Standard)
    (ok : p.putBracket kind opener closing content sectioned = .ok q) : Sound q := by
  unfold putBracket at ok
  split at ok
  · next t made =>
    cases ok
    exact ⟨s.rules, s.waiting, fun other found => Option.some.inj found ▸ makes t made⟩
  · cases ok

theorem closeBracket_sound {rule : Rule} (s : Sound p) (ok : p.closeBracket rule closing = .ok q) :
    Sound q := by
  obtain ⟨completed, completes, ok⟩ := bind_ok ok
  obtain ⟨reduced, reduces, ok⟩ := bind_ok ok
  obtain ⟨⟨content, opener, free⟩, popped, ok⟩ := bind_ok ok
  have s' := dropSeparators_sound s
  obtain ⟨left, -, makes⟩ := (completeSection_emptied s' completes reduces).popped s' popped
  dsimp only at ok
  split at ok
  · exact putBracket_sound left (makes closing) ok
  · split at ok <;> cases ok

/-- The bracket of a block or of the file makes no section. -/
theorem ofBracket_lines {kind : BracketKind} (lines : kind = .block ∨ kind = .file) (opening : Tag)
    (sectioned : Bool) : Tree.ofBracket kind opening closing content false =
      Tree.ofBracket kind opening closing content sectioned := by
  rcases lines with rfl | rfl <;> rfl

theorem closeBlock_sound {span : Span} (s : Sound p) (ok : p.closeBlock span = .ok q) : Sound q := by
  obtain ⟨reduced, reduces, ok⟩ := bind_ok ok
  obtain ⟨⟨content, opener, free⟩, popped, ok⟩ := bind_ok ok
  have s' := dropSeparators_sound s
  obtain ⟨left, -, makes⟩ := (s'.emptied reduces).popped s' popped
  dsimp only at ok
  split at ok
  · next block =>
    rw [block, Option.getD_some] at makes
    exact putBracket_sound left (fun t made => makes _ t ((ofBracket_lines (.inl rfl) _ _).symm.trans made)) ok
  · cases ok

theorem closeBlocks_sound {ends : Nat → Bool} {span : Span} {layout : List Layout} (s : Sound p)
    (ok : closeBlocks ends span p layout = .ok q) : Sound q := by
  fun_induction closeBlocks ends span p layout with
  | case1 p width outer rest ends ih =>
    obtain ⟨closed, closes, ok⟩ := bind_ok ok
    exact ih closed (closeBlock_sound s closes) ok
  | case2 | case3 =>
    cases ok
    exact s

/-- What is left at the end of a source is its tree. -/
theorem finish_standard {span : Span} {t : Tree} (s : Sound p) (ok : p.finish span = .ok (t, q)) :
    t.Standard := by
  obtain ⟨closed, closes, ok⟩ := bind_ok ok
  obtain ⟨reduced, reduces, ok⟩ := bind_ok ok
  obtain ⟨⟨content, opener, free⟩, popped, ok⟩ := bind_ok ok
  have s' := dropSeparators_sound (closeBlocks_sound s closes)
  obtain ⟨-, -, makes⟩ := (s'.emptied reduces).popped s' popped
  dsimp only at ok
  split at ok
  · next file =>
    rw [file, Option.getD_some] at makes
    split at ok
    · next made =>
      cases ok
      exact makes _ t ((ofBracket_lines (.inr rfl) _ _).symm.trans made)
    · cases ok
  · cases ok

end MixfixLambda.Parser
