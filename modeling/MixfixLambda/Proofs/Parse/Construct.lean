import MixfixLambda.Proofs.Parse.Bracket
import MixfixLambda.Proofs.Token.Literal
import MixfixLambda.Proofs.Tree.Standard

/-!
# Reading constructs back

One lemma for every construct of the language that is printed: if its parts are read back from their texts,
so is the construct. Parentheses keep every construct apart from its neighbours, so that an operator never
meets another one that it would have to be compared with.
-/
namespace MixfixLambda

namespace Parser

variable {p q free : Parser} {opener top : Pending} {operators : List Pending} {t left right whole : Tree}
  {rest : List Char}

/-- A printed tree is read as the next operand. -/
def Reads (t : Tree) : Prop :=
  ∀ (p : Parser) (rest : List Char), p.Accepts → p.Undeclared → Cursor.Ends Cursor.isNameChar rest →
    p.Takes t.render.toList rest (p.Took t)

/-! ### Words and literals -/

theorem took_shiftOperand {t' : Tree} (accepts : p.Accepts) (same : t'.unlocated = t.unlocated) :
    ∃ q, p.shiftOperand t' = .ok q ∧ p.Took t q := by
  obtain ⟨free, separated, -, u⟩ := accepts t'.span
  refine ⟨{ free with operand := some t' }, ?_, ⟨u.rules, u.words⟩, t'.span, free, t', separated, same, rfl⟩
  rw [shiftOperand, separated]
  rfl

theorem reads_literal (token : Token) (more : token ≠ .eof)
    (spelled : ∀ rest, Cursor.Ends Cursor.isNameChar rest → Spells t.render.toList rest token)
    (shift : ∀ (p : Parser) (span : Span), ∃ t', t'.unlocated = t.unlocated ∧
      p.shift token span = p.shiftOperand t') : Reads t := by
  intro p rest accepts _ ends
  refine takes_token (spelled rest ends) more fun span => ?_
  obtain ⟨t', same, shifted⟩ := shift p span
  rw [shifted]
  exact took_shiftOperand accepts same

theorem reads_int {value : Int} (natural : 0 ≤ value) (fits : value ≤ maxInt) (span : Span) :
    Reads (.int value span) := by
  obtain ⟨n, rfl⟩ := Int.eq_ofNat_of_zero_le natural
  refine reads_literal (.int n) Token.noConfusion (fun rest ends => Cursor.spells_int fits ?_)
    fun _ place => ⟨.int n place, rfl, rfl⟩
  intro c found
  have other := ends c found
  rw [Cursor.isNameChar, Bool.or_eq_false_iff] at other
  exact other.1

theorem reads_str (bytes : List UInt8) (span : Span) : Reads (.str bytes span) :=
  reads_literal (.str bytes) Token.noConfusion (fun rest _ => Cursor.spells_str bytes rest)
    fun _ place => ⟨.str bytes place, rfl, rfl⟩

theorem reads_char (value : Char) (span : Span) : Reads (.char value span) :=
  reads_literal (.char value) Token.noConfusion (fun rest _ => Cursor.spells_char value rest)
    fun _ place => ⟨.char value place, rfl, rfl⟩

/-- The word of a rule is read where no name and no operator goes on. -/
theorem spellsWord_symbol {rule : Rule} (listed : rule ∈ defaultRules)
    (name : Cursor.Ends Cursor.isNameChar rest) (symbol : Cursor.Ends isSymbolChar rest) :
    SpellsWord rule.symbol.toList rest :=
  Cursor.spellsWord (Tree.isWord_symbol rule listed) name fun _ => symbol

/-! ### Parentheses -/

/-- An opening parenthesis that waits for the closing one. -/
def paren (tag : Tag) : Pending :=
  .leading (.opening "(" ")" .paren) tag

theorem putBracket_paren {closing : Tag} (plain : t.isComma = false) (opener : Pending) :
    free.putBracket .paren opener closing (some t) false = .ok { free with operand := some t } := by
  cases t <;> first
    | rfl
    | cases plain

theorem reads_parenthesized {inner : List Char} (plain : t.isComma = false)
    (shown : t.render.toList = "(".toList ++ inner ++ ")".toList)
    (inside : ∀ (free : Parser) (tag : Tag) (rest : List Char), free.Undeclared →
      free.operand = none →
      (free.within (paren tag) [] none).Takes inner (")".toList ++ rest) (Reaches free (paren tag) [] t)) :
    Reads t := by
  intro p rest accepts u _
  rw [shown]
  refine takes_brackets (b := ("(", ")", .paren)) (List.mem_cons_self ..) accepts u ?_
  intro free tag u' empty
  refine (inside free tag rest u' empty).mono fun q reaches => ⟨reaches.1, fun closing => ?_⟩
  obtain ⟨t', same, closed⟩ : ∃ t', t'.unlocated = t.unlocated ∧
      q.closeBracket (.closing ")" "(" .paren) closing =
        free.putBracket .paren (paren tag) closing (some t') false :=
    reaches.closes closing rfl rfl rfl u' empty
  refine ⟨t', same, closed.trans (putBracket_paren ?_ _)⟩
  rw [← Tree.isComma_unlocated, same, Tree.isComma_unlocated, plain]

/-- An operator that binds nothing in front of it waits behind its left operand. -/
theorem takes_infixOp {rule : Rule} (listed : rule ∈ defaultRules) (start : rule.prior = none)
    (between : rule.fixity = .infixOp) (u : (free.within opener operators (some left)).Undeclared)
    (loose : ∀ tag, (free.within opener operators (some left)).reduceLeft rule tag =
      .ok (free.within opener operators (some left)))
    (spelled : SpellsWord rule.symbol.toList rest) :
    (free.within opener operators (some left)).Takes rule.symbol.toList rest fun q =>
      ∃ tag, tag.text = rule.symbol ∧
        q = free.within opener (.infixed rule tag left :: operators) none := by
  refine takes_word spelled fun span => ?_
  have pushed : (free.within opener operators (some left)).shiftOperator rule
      ⟨rule.symbol, span, free.origin⟩ = .ok (free.within opener
        (.infixed rule ⟨rule.symbol, span, free.origin⟩ left :: operators) none) := by
    simp only [shiftOperator, between, shiftInner]
    rw [if_neg (by simp [within]), start]
    simp only [loose, bind, Except.bind, pure, Except.pure]
    rfl
  exact ⟨_, (u.shiftOperator listed span).trans pushed, ⟨rule.symbol, span, free.origin⟩, rfl, rfl⟩

theorem ends_symbol (c : Char) (rest : List Char)
    (separates : Cursor.isNameChar c = false ∧ isSymbolChar c = false) :
    Cursor.Ends Cursor.isNameChar (c :: rest) ∧ Cursor.Ends isSymbolChar (c :: rest) :=
  ⟨Cursor.ends_cons.2 separates.1, Cursor.ends_cons.2 separates.2⟩

theorem infix_undeclared {rule : Rule} (listed : rule ∈ defaultRules)
    (between : rule.fixity = .infixOp) (kind : DeclarationKind) : rule.reduction ≠ .declare kind := by
  have facts : ∀ rule ∈ defaultRules, rule.fixity = .infixOp → ∀ kind ∈ DeclarationKind.all,
      rule.reduction ≠ .declare kind := by
    decide +kernel
  exact facts rule listed between kind (by cases kind <;> decide)

theorem undeclared_paren (u : free.Undeclared) (tag : Tag) (operand : Option Tree) :
    (free.within (paren tag) [] operand).Undeclared :=
  undeclared_within u (by simp [paren, Pending.leading, Rule.opening]) (by simp) operand

theorem undeclared_infixed {rule : Rule} (listed : rule ∈ defaultRules)
    (between : rule.fixity = .infixOp) (u : (free.within opener operators none).Undeclared) (tag : Tag)
    (left : Tree) (operand : Option Tree) :
    (free.within opener (.infixed rule tag left :: operators) operand).Undeclared := by
  refine ⟨u.rules, fun o inside => ?_⟩
  rcases List.mem_cons.1 inside with rfl | inside
  · exact infix_undeclared listed between
  · exact u.words o inside

theorem takes_gap {gap : List Char} {Q : Parser → Prop} (blank : gap = [] ∨ gap = [' ']) (here : Q p) :
    p.Takes gap rest Q := by
  rcases blank with rfl | rfl
  · exact fun position => ⟨p, position, here, rfl⟩
  · exact takes_space here

/-- Two operands with an infix operator between them, alone in parentheses. -/
theorem reads_infixOp {rule : Rule} {gap : List Char} (listed : rule ∈ defaultRules)
    (start : rule.prior = none) (between : rule.fixity = .infixOp) (readsLeft : Reads left)
    (readsRight : Reads right) (plain : whole.isComma = false) (blank : gap = [] ∨ gap = [' '])
    (shown : whole.render.toList = "(".toList ++ (left.render.toList ++ (gap ++ (rule.symbol.toList ++
      (gap ++ right.render.toList)))) ++ ")".toList)
    (apart : ∀ rest, Cursor.Ends Cursor.isNameChar (gap ++ (rule.symbol.toList ++ rest)))
    (spelled : ∀ rest, SpellsWord rule.symbol.toList (gap ++ (right.render.toList ++ rest)))
    (makes : ∀ (tag : Tag) (left' right' : Tree), tag.text = rule.symbol →
      left'.unlocated = left.unlocated → right'.unlocated = right.unlocated →
      (Tree.ofInfix rule.reduction tag left' right').unlocated = whole.unlocated) : Reads whole := by
  refine reads_parenthesized plain shown fun free tag rest u empty => ?_
  have u' := undeclared_paren u tag
  refine (readsLeft _ _ (accepts_of_none rfl (u' none)) (u' none) ?_).append ?_
  · simpa using apart (gap ++ (right.render.toList ++ (")".toList ++ rest)))
  intro q took
  obtain ⟨left', sameLeft, rfl⟩ := took.of_within
  refine Takes.append (takes_gap blank rfl) ?_
  rintro _ rfl
  refine Takes.append (takes_infixOp listed start between (u' (some left'))
    (reduceLeft_opener rfl rfl rule) ?_) ?_
  · simpa using spelled (")".toList ++ rest)
  rintro _ ⟨operator, named, rfl⟩
  refine Takes.append (takes_gap blank rfl) ?_
  rintro _ rfl
  have waits := undeclared_infixed listed between (u' none) operator left' none
  refine (readsRight _ _ (accepts_of_none rfl waits) waits (Cursor.ends_cons.2 (by decide))).mono ?_
  intro q took
  exact took.reaches.infixed start between fun right' sameRight =>
    makes operator left' right' named sameLeft sameRight

/-- Two operands with an infix operator and spaces between them. -/
theorem reads_spaced {rule : Rule} (listed : rule ∈ defaultRules) (start : rule.prior = none)
    (between : rule.fixity = .infixOp) (readsLeft : Reads left) (readsRight : Reads right)
    (plain : whole.isComma = false)
    (shown : whole.render = "(" ++ left.render ++ " " ++ rule.symbol ++ " " ++ right.render ++ ")")
    (makes : ∀ (tag : Tag) (left' right' : Tree), tag.text = rule.symbol →
      left'.unlocated = left.unlocated → right'.unlocated = right.unlocated →
      (Tree.ofInfix rule.reduction tag left' right').unlocated = whole.unlocated) : Reads whole := by
  have blank : ∀ rest, Cursor.Ends Cursor.isNameChar (' ' :: rest) ∧
      Cursor.Ends isSymbolChar (' ' :: rest) := fun rest => ends_symbol ' ' rest (by decide)
  refine reads_infixOp listed start between readsLeft readsRight plain (.inr rfl) ?_
    (fun rest => (blank _).1) (fun rest => spellsWord_symbol listed (blank _).1 (blank _).2) makes
  rw [shown]
  simp [String.toList_append]

/-- The rules of `\`, `=`, `->` and `@`. -/
theorem constructs_listed : Rule.prefixOp "\\" 4 .operator ∈ defaultRules ∧
    Rule.infixOp "=" 2 .none .define ∈ defaultRules ∧
    Rule.infixOp "->" 3 .right .lambda ∈ defaultRules ∧
    Rule.infixOp "@" 97 .right .asPattern ∈ defaultRules := by
  decide +kernel

/-! ### Names -/

theorem reads_name {tag : Tag} (word : IsWord tag.text.toList)
    (unruled : Registry.default.lookup tag.text = Rule.operand tag.text) : Reads (.name tag) := by
  have takes : ∀ (p : Parser) (rest : List Char), p.Accepts → p.Undeclared →
      SpellsWord tag.text.toList rest → p.Takes tag.text.toList rest (p.Took (.name tag)) := by
    intro p rest accepts u spelled
    refine takes_word spelled fun span => ?_
    rw [u.shiftName unruled]
    exact took_shiftOperand accepts rfl
  cases symbolic : isSymbolic tag.text with
  | true =>
    have shown : (Tree.name tag).render.toList = "(".toList ++ tag.text.toList ++ ")".toList := by
      simp [Tree.render, Tag.asValue, symbolic, String.toList_append]
    refine reads_parenthesized rfl shown fun free opening rest u empty => ?_
    have u' := undeclared_paren u opening none
    have ends := ends_symbol ')' rest (by decide)
    refine (takes _ _ (accepts_of_none rfl u') u' ?_).mono fun q took => took.reaches
    exact Cursor.spellsWord word ends.1 fun _ => ends.2
  | false =>
    intro p rest accepts u ends
    have shown : (Tree.name tag).render = tag.text := by
      simp [Tree.render, Tag.asValue, symbolic]
    rw [shown]
    refine takes p rest accepts u (Cursor.spellsWord word ends fun symbol => ?_)
    rw [String.ofList_toList, symbolic] at symbol
    cases symbol

/-! ### Sections -/

/-- An operator directly behind a parenthesis. -/
def headless (rule : Rule) (tag : Tag) : Pending :=
  { Pending.leading rule tag with missingLeft := true }

/-- A parenthesis in which a section has been found. -/
def sectioned (tag : Tag) : Pending :=
  { paren tag with sectioned := true }

theorem sectionable_facts {rule : Rule} (sections : rule.isSectionable = true) :
    rule.fixity = .infixOp ∧ rule.prior = none ∧ rule.reduction = .operator := by
  simpa [Rule.isSectionable, and_assoc] using sections

theorem takes_headless {rule : Rule} {tag : Tag} (listed : rule ∈ defaultRules)
    (sections : rule.isSectionable = true) (u : free.Undeclared)
    (spelled : SpellsWord rule.symbol.toList rest) :
    (free.within (paren tag) [] none).Takes rule.symbol.toList rest fun q =>
      ∃ operator, operator.text = rule.symbol ∧
        q = free.within (paren tag) [headless rule operator] none := by
  refine takes_word spelled fun span => ?_
  have pushed : (free.within (paren tag) [] none).shiftOperator rule ⟨rule.symbol, span, free.origin⟩ =
      .ok (free.within (paren tag) [headless rule ⟨rule.symbol, span, free.origin⟩] none) := by
    have inParens : (paren tag).isParen = true := rfl
    simp [shiftOperator, (sectionable_facts sections).1, shiftInner, within, sections, inParens, headless]
  exact ⟨_, ((undeclared_paren u tag none).shiftOperator listed span).trans pushed,
    ⟨rule.symbol, span, free.origin⟩, rfl, rfl⟩

theorem undeclared_headless {rule : Rule} (sections : rule.isSectionable = true) (u : free.Undeclared)
    (tag operator : Tag) (operand : Option Tree) :
    (free.within (paren tag) [headless rule operator] operand).Undeclared := by
  refine undeclared_within u (by simp [paren, Pending.leading, Rule.opening]) ?_ operand
  intro o inside kind
  rw [List.mem_singleton.1 inside]
  simp [headless, Pending.leading, (sectionable_facts sections).2.2]

theorem not_separator {rule : Rule} (sections : rule.isSectionable = true) :
    rule.isSeparator = false ∧ rule.isOpener = false := by
  obtain ⟨between, -, operator⟩ := sectionable_facts sections
  simp [Rule.isSeparator, Rule.isOpener, between, operator]

theorem reads_operator {tag : Tag} {rule : Rule} (listed : rule ∈ defaultRules)
    (sections : rule.isSectionable = true) (named : tag.text = rule.symbol) : Reads (.name tag) := by
  intro p rest accepts u _
  have shown : (Tree.name tag).render.toList = "(".toList ++ rule.symbol.toList ++ ")".toList := by
    simp [Tree.render, Tag.asValue, named, Tree.isSymbolic_symbol rule listed sections,
      String.toList_append]
  rw [shown]
  refine takes_brackets (b := ("(", ")", .paren)) (List.mem_cons_self ..) accepts u ?_
  intro free opening u' empty
  have ends := ends_symbol ')' rest (by decide)
  refine (takes_headless listed sections u' (spellsWord_symbol listed ends.1 ends.2)).mono ?_
  rintro _ ⟨operator, same, rfl⟩
  refine ⟨undeclared_headless sections u' opening operator none, fun closing => ?_⟩
  have completes : (free.within (paren opening) [headless rule operator] none).dropSeparators.completeSection =
      .ok (free.within (paren opening) [] (some (.name operator))) := by
    have inParens : (paren opening).isParen = true := rfl
    have plain : (headless rule operator).rule.isSeparator = false := (not_separator sections).1
    have noOpener : (headless rule operator).rule.isOpener = false := (not_separator sections).2
    have missing : (headless rule operator).missingLeft = true := rfl
    have name : (headless rule operator).tag = operator := rfl
    simp [dropSeparators, eraseSeparators, completeSection, within, inParens, plain, noOpener, missing, name]
  refine ⟨.name operator, ?_, ?_⟩
  · simp [Tree.unlocated, Tag.unlocated, same, named]
  · exact (closeBracket_within completes (reduceToOpener_opener rfl rfl) rfl rfl rfl u' empty).trans rfl

theorem putBracket_sectioned {closing : Tag} (plain : t.isComma = false) (opener : Pending) :
    ∃ span, free.putBracket .paren opener closing (some t) true =
      .ok { free with operand := some (.sectionOf t span) } := by
  cases t <;> first
    | exact ⟨_, rfl⟩
    | cases plain

theorem closes_section {completed : Parser} {opening closing : Tag}
    (completes : q.dropSeparators.completeSection = .ok completed)
    (reduces : completed.reduceToOpener = .ok (free.within (sectioned opening) [] (some t)))
    (plain : t.isComma = false) (u : free.Undeclared) (empty : free.operand = none) :
    ∃ span, q.closeBracket (.closing ")" "(" .paren) closing =
      .ok { free with operand := some (.sectionOf t span) } := by
  obtain ⟨span, put⟩ := putBracket_sectioned plain (sectioned opening)
  exact ⟨span, (closeBracket_within completes reduces rfl rfl rfl u empty).trans put⟩

theorem reads_rightSection {tag : Tag} {rule : Rule} {missing span : Span}
    (listed : rule ∈ defaultRules) (sections : rule.isSectionable = true)
    (named : tag.text = rule.symbol) (reads : Reads right) :
    Reads (.sectionOf (.infixOp tag (.placeholder missing) right) span) := by
  intro p rest accepts u _
  have shown : (Tree.sectionOf (.infixOp tag (.placeholder missing) right) span).render.toList =
      "(".toList ++ (rule.symbol.toList ++ ([' '] ++ right.render.toList)) ++ ")".toList := by
    simp [Tree.render, named, String.toList_append]
  rw [shown]
  refine takes_brackets (b := ("(", ")", .paren)) (List.mem_cons_self ..) accepts u ?_
  intro free opening u' empty
  have ends := ends_symbol ' ' (right.render.toList ++ (")".toList ++ rest)) (by decide)
  refine (takes_headless listed sections u' (spellsWord_symbol listed ?_ ?_)).append ?_
  · simpa using ends.1
  · simpa using ends.2
  rintro _ ⟨operator, same, rfl⟩
  refine Takes.append (takes_space rfl) ?_
  rintro _ rfl
  have waits := undeclared_headless sections u' opening operator none
  refine (reads _ _ (accepts_of_none rfl waits) waits (Cursor.ends_cons.2 (by decide))).mono ?_
  intro q took
  refine ⟨took.1, fun closing => ?_⟩
  obtain ⟨right', sameRight, rfl⟩ := took.of_within
  obtain ⟨between, start, operation⟩ := sectionable_facts sections
  let point := Span.point operator.span.start
  have reduces : (free.within (paren opening) [headless rule operator] (some right')).reduceToOpener =
      .ok (free.within (sectioned opening) []
        (some (.infixOp operator (.placeholder point) right'))) := by
    have step : (free.within (paren opening) [headless rule operator] (some right')).reduceTop
        (headless rule operator) (paren opening :: free.pending) right' =
        .ok (free.within (sectioned opening) []
          (some (.infixOp operator (.placeholder point) right'))) := by
      have opens : (paren opening).rule.isOpener = true := rfl
      simp [reduceTop, headless, Pending.leading, start, between, operation, Tree.ofInfix, markSection,
        opens, within, sectioned, point]
    rw [reduceToOpener_step rfl (not_separator sections).2 rfl step]
    exact reduceToOpener_opener rfl rfl
  obtain ⟨place, closed⟩ := closes_section (completes_some rfl) reduces rfl u' empty
  refine ⟨_, ?_, closed⟩
  simp [Tree.unlocated, Tag.unlocated, same, named, sameRight]

theorem reads_leftSection {tag : Tag} {rule : Rule} {missing span : Span}
    (listed : rule ∈ defaultRules) (sections : rule.isSectionable = true)
    (named : tag.text = rule.symbol) (plain : left.isPlaceholder = false) (reads : Reads left) :
    Reads (.sectionOf (.infixOp tag left (.placeholder missing)) span) := by
  intro p rest accepts u _
  obtain ⟨between, start, operation⟩ := sectionable_facts sections
  have shown : (Tree.sectionOf (.infixOp tag left (.placeholder missing)) span).render.toList =
      "(".toList ++ (left.render.toList ++ ([' '] ++ rule.symbol.toList)) ++ ")".toList := by
    have body : (Tree.sectionOf (.infixOp tag left (.placeholder missing)) span).render =
        "(" ++ left.render ++ " " ++ tag.text ++ ")" := by
      rw [Tree.render, Tree.render_infixOp, plain]
      rfl
    rw [body]
    simp [named, String.toList_append]
  rw [shown]
  refine takes_brackets (b := ("(", ")", .paren)) (List.mem_cons_self ..) accepts u ?_
  intro free opening u' empty
  have inside := undeclared_paren u' opening
  refine (reads _ _ (accepts_of_none rfl (inside none)) (inside none) (Cursor.ends_cons.2 (by decide))).append ?_
  intro q took
  obtain ⟨left', sameLeft, rfl⟩ := took.of_within
  refine Takes.append (takes_space rfl) ?_
  rintro _ rfl
  have ends := ends_symbol ')' rest (by decide)
  refine (takes_infixOp listed start between (inside (some left')) (reduceLeft_opener rfl rfl rule)
    (spellsWord_symbol listed ends.1 ends.2)).mono ?_
  rintro _ ⟨operator, same, rfl⟩
  refine ⟨undeclared_infixed listed between (inside none) operator left' none, fun closing => ?_⟩
  let point := Span.point operator.span.stop
  have completes : (free.within (paren opening) [.infixed rule operator left']
      none).dropSeparators.completeSection = .ok (free.within (sectioned opening)
        [.infixed rule operator left'] (some (.placeholder point))) := by
    have inParens : (paren opening).isParen = true := rfl
    have opens : (paren opening).rule.isOpener = true := rfl
    simp [dropSeparators, eraseSeparators, completeSection, within, inParens, opens, Pending.infixed,
      Pending.leading, not_separator sections, sections, markSection, sectioned, point]
  have reduces : (free.within (sectioned opening) [.infixed rule operator left']
      (some (.placeholder point))).reduceToOpener = .ok (free.within (sectioned opening) []
        (some (.infixOp operator left' (.placeholder point)))) := by
    rw [reduceToOpener_step rfl (not_separator sections).2 rfl (reduceTop_infixed start between ..),
      operation]
    exact reduceToOpener_opener rfl rfl
  obtain ⟨place, closed⟩ := closes_section completes reduces rfl u' empty
  refine ⟨_, ?_, closed⟩
  simp [Tree.unlocated, Tag.unlocated, same, named, sameLeft]

/-! ### Juxtaposition and prefixes -/

theorem juxtapose_opener {below : List Pending} (here : p.pending = opener :: below)
    (opens : opener.rule.isOpener = true) (place : Span) :
    p.juxtapose place = .ok (p.push Rule.space (p.tag " " (Span.point place.start))) := by
  simp only [juxtapose, reduceLeft_opener here opens]
  rfl

theorem separateOperands_paren (tag : Tag) (head : Tree) (place : Span) :
    (free.within (paren tag) [] (some head)).separateOperands place = .ok (free.within (paren tag)
      [.infixed Rule.space ⟨" ", Span.point place.start, free.origin⟩ head] none) := by
  exact juxtapose_opener rfl rfl place

theorem reads_apply {head argument : Tree} {span : Span} (readsHead : Reads head)
    (readsArgument : Reads argument) : Reads (.apply head argument span) := by
  have shown : (Tree.apply head argument span).render.toList =
      "(".toList ++ (head.render.toList ++ ([' '] ++ argument.render.toList)) ++ ")".toList := by
    simp [Tree.render, String.toList_append]
  refine reads_parenthesized rfl shown fun free tag rest u empty => ?_
  have u' := undeclared_paren u tag
  refine (readsHead _ _ (accepts_of_none rfl (u' none)) (u' none) (Cursor.ends_cons.2 (by decide))).append ?_
  intro q took
  obtain ⟨head', sameHead, rfl⟩ := took.of_within
  refine Takes.append (takes_space rfl) ?_
  rintro _ rfl
  have accepts : (free.within (paren tag) [] (some head')).Accepts := by
    refine fun place => ⟨_, separateOperands_paren tag head' place, rfl, ?_⟩
    refine undeclared_within u (by simp [paren, Pending.leading, Rule.opening]) ?_ none
    intro o inside kind
    rw [List.mem_singleton.1 inside]
    exact Reduction.noConfusion
  refine (readsArgument _ _ accepts (u' (some head')) (Cursor.ends_cons.2 (by decide))).mono ?_
  rintro q ⟨uq, place, free', argument', separated, sameArgument, rfl⟩
  rw [separateOperands_paren] at separated
  cases separated
  have reaches : Reaches free (paren tag)
      [.infixed Rule.space ⟨" ", Span.point place.start, free.origin⟩ head'] argument _ :=
    ⟨uq, rfl, argument', sameArgument, rfl⟩
  refine reaches.infixed rfl rfl fun right sameRight => ?_
  simp [Tree.ofInfix, Rule.space, Rule.infixOp, Tree.juxtapose, Tree.unlocated, sameHead, sameRight]

/-- A prefix operator waits for its operand. -/
theorem takes_prefixOp {rule : Rule} (listed : rule ∈ defaultRules) (leads : rule.fixity = .prefixOp)
    (u : (free.within opener operators none).Undeclared) (spelled : SpellsWord rule.symbol.toList rest) :
    (free.within opener operators none).Takes rule.symbol.toList rest fun q =>
      ∃ tag, tag.text = rule.symbol ∧ q = free.within opener (.leading rule tag :: operators) none := by
  refine takes_word spelled fun span => ?_
  have pushed : (free.within opener operators none).shiftOperator rule ⟨rule.symbol, span, free.origin⟩ =
      .ok (free.within opener (.leading rule ⟨rule.symbol, span, free.origin⟩ :: operators) none) := by
    simp only [shiftOperator, leads]
    rw [separateOperands_none rfl]
    rfl
  exact ⟨_, (u.shiftOperator listed span).trans pushed, ⟨rule.symbol, span, free.origin⟩, rfl, rfl⟩

theorem undeclared_leading (rule : Rule) (plain : ∀ kind, rule.reduction ≠ .declare kind)
    (u : (free.within opener operators none).Undeclared) (tag : Tag) :
    (free.within opener (.leading rule tag :: operators) none).Undeclared := by
  refine ⟨u.rules, fun o inside => ?_⟩
  rcases List.mem_cons.1 inside with rfl | inside
  · exact plain
  · exact u.words o inside

theorem reads_prefixOp {tag : Tag} {rule : Rule} {operand : Tree} (listed : rule ∈ defaultRules)
    (leads : rule.fixity = .prefixOp) (operation : rule.reduction = .operator)
    (start : rule.prior = none) (named : tag.text = rule.symbol) (reads : Reads operand) :
    Reads (.prefixOp tag operand) := by
  have shown : (Tree.prefixOp tag operand).render.toList =
      "(".toList ++ (rule.symbol.toList ++ ([' '] ++ operand.render.toList)) ++ ")".toList := by
    simp [Tree.render, named, String.toList_append]
  refine reads_parenthesized rfl shown fun free opening rest u empty => ?_
  have u' := undeclared_paren u opening none
  have ends := ends_symbol ' ' (operand.render.toList ++ (")".toList ++ rest)) (by decide)
  refine (takes_prefixOp listed leads u' (spellsWord_symbol listed ?_ ?_)).append ?_
  · simpa using ends.1
  · simpa using ends.2
  rintro _ ⟨operator, same, rfl⟩
  refine Takes.append (takes_space rfl) ?_
  rintro _ rfl
  have waits := undeclared_leading rule (by simp [operation]) u' operator
  refine (reads _ _ (accepts_of_none rfl waits) waits (Cursor.ends_cons.2 (by decide))).mono ?_
  intro q took
  refine took.reaches.reduce ?_ fun operand' sameOperand => ⟨.prefixOp operator operand', ?_, ?_⟩
  · simp [Pending.leading, Rule.isOpener, leads]
  · simp [Tree.unlocated, Tag.unlocated, same, named, sameOperand]
  · simp [reduceTop, Pending.leading, start, leads, operation, within]

/-! ### Chains of `if`, `then` and `else` -/

def ifRule : Rule :=
  .prefixOp "if" 3 .operator

def thenRule : Rule :=
  (Rule.infixOp "then" 3 .right .operator).after "if"

def elseRule : Rule :=
  (Rule.infixOp "else" 3 .right .operator).after "then"

theorem mixfix_listed : ifRule ∈ defaultRules ∧ thenRule ∈ defaultRules ∧ elseRule ∈ defaultRules := by
  decide +kernel

/-- A part of a chain continues the part before it. -/
theorem takes_part {rule : Rule} {prior : String} (listed : rule ∈ defaultRules)
    (between : rule.fixity = .infixOp) (continues : rule.prior = some prior)
    (operator : top.rule.isOpener = false) (here : top.rule.symbol = prior)
    (u : (free.within opener (top :: operators) (some left)).Undeclared)
    (spelled : SpellsWord rule.symbol.toList rest) :
    (free.within opener (top :: operators) (some left)).Takes rule.symbol.toList rest fun q =>
      ∃ tag, tag.text = rule.symbol ∧
        q = free.within opener (.infixed rule tag left :: top :: operators) none := by
  refine takes_word spelled fun span => ?_
  have stays : (free.within opener (top :: operators) (some left)).reduceToPrior prior
      ⟨rule.symbol, span, free.origin⟩ = .ok (free.within opener (top :: operators) (some left)) := by
    rw [reduceToPrior.eq_def]
    simp [within, operator, here]
  have pushed : (free.within opener (top :: operators) (some left)).shiftOperator rule
      ⟨rule.symbol, span, free.origin⟩ = .ok (free.within opener
        (.infixed rule ⟨rule.symbol, span, free.origin⟩ left :: top :: operators) none) := by
    simp only [shiftOperator, between, shiftInner]
    rw [if_neg (by simp [within]), continues]
    simp only [stays, bind, Except.bind, pure, Except.pure]
    rfl
  exact ⟨_, (u.shiftOperator listed span).trans pushed, ⟨rule.symbol, span, free.origin⟩, rfl, rfl⟩

/-- A condition and what is chosen when it holds, up to the second choice. -/
theorem takes_ifThen {test yes : Tree} (readsTest : Reads test) (readsYes : Reads yes)
    (opening : Tag) (u : free.Undeclared) (separates : Cursor.Ends Cursor.isNameChar rest) :
    (free.within (paren opening) [] none).Takes ("if".toList ++ ([' '] ++ (test.render.toList ++
      ([' '] ++ ("then".toList ++ ([' '] ++ yes.render.toList)))))) rest fun q =>
        ∃ if_ then_ test', if_.text = "if" ∧ then_.text = "then" ∧ test'.unlocated = test.unlocated ∧
          (free.within (paren opening) [.infixed thenRule then_ test', .leading ifRule if_] none).Took
            yes q := by
  obtain ⟨listedIf, listedThen, -⟩ := mixfix_listed
  have u' := undeclared_paren u opening none
  have blank : ∀ rest, Cursor.Ends Cursor.isNameChar (' ' :: rest) ∧
      Cursor.Ends isSymbolChar (' ' :: rest) := fun rest => ends_symbol ' ' rest (by decide)
  refine Takes.append (takes_prefixOp listedIf rfl u' ?_) ?_
  · exact spellsWord_symbol listedIf (blank _).1 (blank _).2
  rintro _ ⟨if_, sameIf, rfl⟩
  refine Takes.append (takes_space rfl) ?_
  rintro _ rfl
  have waits := undeclared_leading ifRule (fun _ => Reduction.noConfusion) u' if_
  refine Takes.append (readsTest _ _ (accepts_of_none rfl waits) waits (blank _).1) ?_
  intro q took
  obtain ⟨test', sameTest, rfl⟩ := took.of_within
  refine Takes.append (takes_space rfl) ?_
  rintro _ rfl
  refine Takes.append (takes_part listedThen rfl rfl rfl rfl ⟨waits.rules, waits.words⟩ ?_) ?_
  · exact spellsWord_symbol listedThen (blank _).1 (blank _).2
  rintro _ ⟨then_, sameThen, rfl⟩
  refine Takes.append (takes_space rfl) ?_
  rintro _ rfl
  have waits' := undeclared_infixed listedThen rfl waits then_ test' none
  refine (readsYes _ _ (accepts_of_none rfl waits') waits' separates).mono fun q took => ?_
  exact ⟨if_, then_, test', sameIf, sameThen, sameTest, took⟩

theorem reads_ifThen {opening middle : Tag} {test yes : Tree} (named : opening.text = "if")
    (continued : middle.text = "then") (readsTest : Reads test) (readsYes : Reads yes) :
    Reads (.mixfix [opening, middle] [test, yes]) := by
  have shown : (Tree.mixfix [opening, middle] [test, yes]).render.toList = "(".toList ++
      ("if".toList ++ ([' '] ++ (test.render.toList ++ ([' '] ++ ("then".toList ++
        ([' '] ++ yes.render.toList)))))) ++ ")".toList := by
    simp [Tree.render, Tree.renderEach, interleave, named, continued, String.toList_append]
  refine reads_parenthesized rfl shown fun free bracket rest u empty => ?_
  refine (takes_ifThen readsTest readsYes bracket u (Cursor.ends_cons.2 (by decide))).mono ?_
  rintro q ⟨if_, then_, test', sameIf, sameThen, sameTest, took⟩
  refine took.reaches.reduce rfl fun yes' sameYes => ⟨.mixfix [if_, then_] [test', yes'], ?_, rfl⟩
  simp [Tree.unlocated, Tag.unlocated, sameIf, sameThen, sameTest, sameYes, named, continued]

theorem reads_ifThenElse {opening middle closing : Tag} {test yes no : Tree}
    (named : opening.text = "if") (continued : middle.text = "then") (ended : closing.text = "else")
    (readsTest : Reads test) (readsYes : Reads yes) (readsNo : Reads no) :
    Reads (.mixfix [opening, middle, closing] [test, yes, no]) := by
  have shown : (Tree.mixfix [opening, middle, closing] [test, yes, no]).render.toList = "(".toList ++
      (("if".toList ++ ([' '] ++ (test.render.toList ++ ([' '] ++ ("then".toList ++
        ([' '] ++ yes.render.toList)))))) ++ ([' '] ++ ("else".toList ++ ([' '] ++ no.render.toList)))) ++
      ")".toList := by
    simp [Tree.render, Tree.renderEach, interleave, named, continued, ended, String.toList_append]
  obtain ⟨-, listedThen, listedElse⟩ := mixfix_listed
  refine reads_parenthesized rfl shown fun free bracket rest u empty => ?_
  have blank : ∀ rest, Cursor.Ends Cursor.isNameChar (' ' :: rest) ∧
      Cursor.Ends isSymbolChar (' ' :: rest) := fun rest => ends_symbol ' ' rest (by decide)
  refine Takes.append (takes_ifThen readsTest readsYes bracket u (blank _).1) ?_
  rintro q ⟨if_, then_, test', sameIf, sameThen, sameTest, took⟩
  have uq := took.1
  obtain ⟨yes', sameYes, rfl⟩ := took.of_within
  refine Takes.append (takes_space rfl) ?_
  rintro _ rfl
  refine Takes.append (takes_part listedElse rfl rfl rfl rfl uq ?_) ?_
  · exact spellsWord_symbol listedElse (blank _).1 (blank _).2
  rintro _ ⟨else_, sameElse, rfl⟩
  refine Takes.append (takes_space rfl) ?_
  rintro _ rfl
  have inside : (free.within (paren bracket) [.infixed thenRule then_ test', .leading ifRule if_]
      none).Undeclared := ⟨uq.rules, uq.words⟩
  have waits := undeclared_infixed listedElse rfl inside else_ yes' none
  refine (readsNo _ _ (accepts_of_none rfl waits) waits (Cursor.ends_cons.2 (by decide))).mono ?_
  intro q took
  refine took.reaches.reduce rfl fun no' sameNo =>
    ⟨.mixfix [if_, then_, else_] [test', yes', no'], ?_, rfl⟩
  have symbol : elseRule.symbol = "else" := rfl
  simp [Tree.unlocated, Tag.unlocated, sameIf, sameThen, sameElse, sameTest, sameYes, sameNo, named,
    continued, ended, symbol]

end Parser

end MixfixLambda
