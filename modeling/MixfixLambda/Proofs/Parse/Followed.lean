import MixfixLambda.Proofs.Parse.Mirror

/-!
# The tokens of a line

Each token of a line is taken alike wherever the line has begun: brackets that the line opens lie above what it lies
on, and outside of them no token of the line reduces anything but the line.
-/
namespace MixfixLambda

namespace Token

/-- The number of brackets that are open behind the token. -/
def depthBehind (depth : Nat) (token : Token) : Nat :=
  if Parser.brackets.any (token.symbol == some ·.1) then depth + 1
  else if Parser.brackets.any (token.symbol == some ·.2.1) then depth - 1
  else depth

instance (token : Token) : Decidable token.Declares :=
  decidable_of_iff (∃ kind ∈ DeclarationKind.all, token.symbol = some kind.keyword)
    ⟨fun ⟨kind, _, word⟩ => ⟨kind, word⟩, fun ⟨kind, word⟩ => ⟨kind, by cases kind <;> decide, word⟩⟩

/-- Whether the token ends a statement or an item. -/
def Separates (token : Token) : Prop :=
  token.symbol = some ";" ∨ token.symbol = some ","

instance (token : Token) : Decidable token.Separates :=
  inferInstanceAs (Decidable (_ ∨ _))

/-- No separator stands outside of all brackets, where so many are open in front of the tokens. -/
def Uncut (depth : Nat) : List Token → Prop
  | [] => True
  | token :: rest => (depth = 0 → ¬token.Separates) ∧ Uncut (token.depthBehind depth) rest

instance Uncut.decidable (depth : Nat) (tokens : List Token) : Decidable (Uncut depth tokens) :=
  match tokens with
  | [] => inferInstanceAs (Decidable True)
  | token :: rest =>
    have := Uncut.decidable (token.depthBehind depth) rest
    inferInstanceAs (Decidable (_ ∧ _))

end Token

namespace Parser

variable {base base' p p' q : Parser} {o o' top top' : Pending} {above above' below rest : List Pending} {t : Tree}
  {rule : Rule} {tag tag' : Tag}

/-! ### Brackets -/

theorem Mirrors.empty (m : Mirrors base base' above above' p p') (empty : p.operand = none) : p'.operand = none := by
  have same := m.operand
  rwa [empty, Option.map_none, Option.map_eq_none_iff] at same

/-- Inside of a bracket of the line, separators are dropped up to the bracket only. -/
theorem eraseSeparators_mirrors {operand operand' : Option Tree} (alike : List.Forall₂ Pending.Alike above above')
    (steady : Stackwise Steady above) (inside : opened above ≠ [])
    (same : operand'.map Tree.unlocated = operand.map Tree.unlocated) (below floor : List Pending) :
    ∃ left left' content content', eraseSeparators operand (above ++ below) = (content, left ++ below) ∧
      eraseSeparators operand' (above' ++ floor) = (content', left' ++ floor) ∧
      List.Forall₂ Pending.Alike left left' ∧ Stackwise Steady left ∧ opened left = opened above ∧
      content'.map Tree.unlocated = content.map Tree.unlocated := by
  induction alike generalizing operand operand' with
  | nil => exact (inside rfl).elim
  | @cons top top' above above' head rest ih =>
    cases operand with
    | some t =>
      obtain ⟨t', rfl, -⟩ := Option.map_eq_some_iff.1 same
      exact ⟨_, _, _, _, rfl, rfl, .cons head rest, steady, rfl, same⟩
    | none =>
      rw [Option.map_none, Option.map_eq_none_iff] at same
      subst same
      rw [List.cons_append, List.cons_append, eraseSeparators, eraseSeparators, head.rule]
      split
      · next separates =>
        have operator := (lineRules_facts _ steady.head.ruled).2.2.2 separates
        rw [opened_operator operator] at inside ⊢
        exact ih steady.tail inside head.left
      · exact ⟨_, _, _, _, rfl, rfl, .cons head rest, steady, rfl, rfl⟩

theorem Mirrors.dropSeparators (m : Mirrors base base' above above' p p') (inside : opened above ≠ []) :
    ∃ left left', Mirrors base base' left left' p.dropSeparators p'.dropSeparators ∧ opened left = opened above := by
  obtain ⟨left, left', content, content', here, there, alike, steady, brackets, same⟩ :=
    eraseSeparators_mirrors m.alike m.steady inside m.operand base.pending base'.pending
  refine ⟨left, left', ?_, brackets⟩
  rw [Parser.dropSeparators, Parser.dropSeparators, m.here.pending, m.there.pending, here, there]
  exact m.replace alike steady brackets same

theorem completeSection_none (empty : p.operand = none) (here : p.pending = top :: below) : p.completeSection =
    if top.rule.isOpener then .ok p
    else if top.missingLeft && (below.head?).any Pending.isParen then
      .ok { p with operand := some (.name top.tag), pending := below }
    else if top.rule.isSectionable && !top.missingLeft && top.left.isSome && (below.head?).any Pending.isParen then
      .ok { p with
        operand := some (.placeholder (Span.point top.tag.span.stop))
        pending := top :: markSection below }
    else p.refuseOperand top.tag := by
  simp only [completeSection, empty, here]

theorem completeSection_some (operand : p.operand = some t) : p.completeSection = .ok p := by
  simp [completeSection, operand]

/-- In a bracket of the line, what lies under an operator is of the line, too. -/
theorem front_append (inside : opened above ≠ []) (below : List Pending) : (above ++ below).head? = above.head? := by
  cases above with
  | nil => exact (inside rfl).elim
  | cons => rfl

theorem Mirrors.completeSection (m : Mirrors base base' above above' p p') (inside : opened above ≠ [])
    (ok : p.completeSection = .ok q) : ∃ left left' q', p'.completeSection = .ok q' ∧
      Mirrors base base' left left' q q' ∧ opened left = opened above := by
  cases operand : p.operand with
  | some t =>
    obtain ⟨t', operand', -⟩ := m.behind operand
    rw [completeSection_some operand] at ok
    cases ok
    exact ⟨above, above', p', completeSection_some operand', m, rfl⟩
  | none =>
    have empty' := m.empty operand
    obtain ⟨here, there, alike, steady, -⟩ := id m
    cases alike with
    | nil => exact (inside rfl).elim
    | @cons top top' upper upper' head rest =>
      have pending : p.pending = top :: (upper ++ base.pending) := here.pending
      have pending' : p'.pending = top' :: (upper' ++ base'.pending) := there.pending
      rw [completeSection_none operand pending] at ok
      rw [completeSection_none empty' pending', head.rule, head.missingLeft]
      by_cases opens : top.rule.isOpener = true
      · rw [if_pos opens] at ok ⊢
        cases ok
        exact ⟨_, _, p', rfl, m, rfl⟩
      · have operator := Bool.eq_false_iff.2 opens
        rw [opened_operator operator] at inside
        have first := front_append inside base.pending
        have first' := front_append (opened_alike rest ▸ inside) base'.pending
        have present : top'.left.isSome = top.left.isSome := by rw [← Option.isSome_map, head.left, Option.isSome_map]
        rw [if_neg opens, first] at ok
        rw [if_neg opens, first', isParen_alike rest, present]
        have brackets := (opened_operator operator upper).symm
        split at ok
        · next bare =>
          rw [if_pos bare]
          cases ok
          refine ⟨upper, upper', _, rfl, m.replace rest steady.tail brackets ?_, brackets⟩
          simp only [Option.map_some, Tree.unlocated, Tag.unlocated_congr head.text]
        · next named =>
          rw [if_neg named]
          split at ok
          · next sections =>
            rw [if_pos sections]
            cases ok
            simp only [Bool.and_eq_true] at sections
            have paren := sections.2
            rw [markSection_append paren, markSection_append ((isParen_alike rest).trans paren)]
            have marked : opened (top :: markSection upper) = opened (top :: upper) := by
              rw [opened_operator operator, opened_markSection, brackets]
            exact ⟨_, _, _, rfl, m.replace (.cons head (markSection_alike rest))
              (.cons (steady_unmarked.under steady.head) (steady.tail.markSection steady_unmarked)) marked rfl, marked⟩
          · cases ok

theorem Upon.leave (upon : Upon base (o :: above) p) (opens : o.rule.isOpener = true) (content : Option Tree) :
    Upon base above
      { { p with operand := none, pending := above ++ base.pending }.leaveScope with operand := content } := by
  refine ⟨rfl, ?_, upon.started, popScope_entries upon.rules⟩
  simp only [leaveScope]
  rw [upon.layout, opened_opener opens]
  rfl

/-- The brackets that are open are those of the line and the file, whatever happens inside of the innermost. -/
theorem Mirrors.brackets {r : Parser} (fresh : base.Fresh) (m : Mirrors base base' above above' p p')
    (stack : Stacked p.pending) (edits : Relation.ReflTransGen Edit p r) :
    opened r.pending = opened above ++ [fileRule] := by
  obtain ⟨tag, width, file, -⟩ := fresh
  have brackets : opened p.pending = opened above ++ [fileRule] := by
    rw [m.here.pending, file, opened, opened, List.map_append, List.filter_append]
    rfl
  have separators : ∀ rule ∈ opened above ++ [fileRule], rule.isSeparator = false := by
    refine List.forall_mem_append.2 ⟨fun rule inside => ?_, by simp [fileRule, Rule.opening, Rule.isSeparator]⟩
    obtain ⟨listed, opens⟩ := List.mem_filter.1 inside
    obtain ⟨o, member, rfl⟩ := List.mem_map.1 listed
    obtain ⟨_, steady⟩ := m.steady.mem member
    refine Bool.eq_false_iff.2 fun separates => ?_
    rw [(lineRules_facts _ steady.ruled).2.2.2 separates] at opens
    cases opens
  refine (edits_keep (I := fun r => Stacked r.pending ∧ opened r.pending = opened above ++ [fileRule]) ?_ edits
    ⟨stack, brackets⟩).2
  rintro p q edit ⟨stack, same⟩
  exact ⟨edit.stackwise fits_unmarked stack, (edit.brackets opened_ofBrackets stack (same ▸ separators)).trans same⟩

/-- Without a bracket of the line there is nothing to close. -/
theorem Mirrors.closes_inside (fresh : base.Fresh) (m : Mirrors base base' above above' p p')
    (stack : Stacked p.pending) (listed : rule ∈ defaultRules) (ok : p.closeBracket rule tag = .ok q) :
    opened above ≠ [] := by
  obtain @⟨r, opener, below, closing, t, edits, here, opens, partner, -⟩ := closeBracket_ok ok
  have brackets := m.brackets fresh stack edits
  intro outside
  rw [outside, here, opened_opener opens] at brackets
  rw [(List.cons.inj brackets).1] at partner
  -- The file has no written partner.
  have named : ∀ rule ∈ defaultRules, rule.symbol ≠ "" := by decide +kernel
  exact named rule listed (Option.some.inj partner).symm

/-- A closing bracket closes the same bracket of the line. -/
theorem Mirrors.closeBracket (fresh : base.Fresh) (m : Mirrors base base' above above' p p')
    (stack : Stacked p.pending) (listed : rule ∈ defaultRules) (named : tag'.text = tag.text)
    (ok : p.closeBracket rule tag = .ok q) : ∃ left left' q', p'.closeBracket rule tag' = .ok q' ∧
      Mirrors base base' left left' q q' ∧ ∃ opener, opened above = opener :: opened left := by
  have inside := m.closes_inside fresh stack listed ok
  obtain ⟨completed, completes, ok⟩ := bind_ok ok
  obtain ⟨reduced, reduces, ok⟩ := bind_ok ok
  obtain ⟨⟨content, opener, free⟩, popped, ok⟩ := bind_ok ok
  obtain ⟨_, _, m, brackets⟩ := m.dropSeparators inside
  obtain ⟨_, _, completed', completes', m, brackets'⟩ := m.completeSection (by rwa [brackets]) completes
  obtain ⟨left, left', reduced', m, brackets'', first, -, reduces', -⟩ := m.reduceToOpener fresh reduces
  have same := brackets''.trans (brackets'.trans brackets)
  obtain ⟨below, here, opens, rfl, rfl⟩ := popBracket_ok popped
  obtain ⟨here', there, alike, steady, operand⟩ := m
  cases alike with
  | nil => exact absurd same.symm inside
  | @cons opener_ opener' upper upper' head rest =>
    have pending := here.symm.trans here'.pending
    obtain ⟨rfl, rfl⟩ := List.cons.inj pending
    have pending' : reduced'.pending = opener' :: (upper' ++ base'.pending) := there.pending
    have opens' : opener'.rule.isOpener = true := by rw [head.rule, opens]
    have stops := reduceToOpener_opener pending' opens'
    have popped' : reduced'.popBracket tag' = .ok (reduced'.operand, opener',
        { reduced' with operand := none, pending := upper' ++ base'.pending }) := by
      simp [popBracket, pending', opens']
    rw [opened_opener opens] at same
    dsimp only at ok
    split at ok
    · next partner =>
      obtain ⟨t, made, rfl⟩ := putBracket_ok ok
      obtain ⟨t', made', agrees⟩ := Tree.ofBracket_congr head.text named operand made
      have closed : p'.closeBracket rule tag' = .ok { { reduced' with
          operand := none, pending := upper' ++ base'.pending }.leaveScope with operand := some t' } := by
        simp only [Parser.closeBracket, completes', reduces', stops, popped', head.rule, head.sectioned, partner,
          if_true, bind, Except.bind, putBracket, made']
      exact ⟨upper, upper', _, closed,
        ⟨here'.leave opens _, there.leave opens' _, rest, steady.tail, congrArg some agrees⟩, _, same.symm⟩
    · split at ok <;> cases ok

/-! ### Operands and operators -/

theorem Mirrors.put {t' : Tree} (m : Mirrors base base' above above' p p') (agrees : t'.unlocated = t.unlocated) :
    Mirrors base base' above above' { p with operand := some t } { p' with operand := some t' } :=
  ⟨⟨m.here.pending, m.here.layout, m.here.started, m.here.rules⟩,
    ⟨m.there.pending, m.there.layout, m.there.started, m.there.rules⟩, m.alike, m.steady, congrArg some agrees⟩

theorem Upon.lay (upon : Upon base above p) (operator : o.rule.isOpener = false) (operand : Option Tree) :
    Upon base (o :: above) { p with operand, pending := o :: p.pending } :=
  ⟨by simp [upon.pending], by rw [opened_operator operator]; exact upon.layout, upon.started, upon.rules⟩

/-- An operator of the line is put on both states. -/
theorem Mirrors.lay {operand operand' : Option Tree} (m : Mirrors base base' above above' p p')
    (head : Pending.Alike o o') (steady : Steady o above) (operator : o.rule.isOpener = false)
    (same : operand'.map Tree.unlocated = operand.map Tree.unlocated) :
    Mirrors base base' (o :: above) (o' :: above') { p with operand, pending := o :: p.pending }
      { p' with operand := operand', pending := o' :: p'.pending } :=
  ⟨m.here.lay operator _, m.there.lay (by rw [head.rule, operator]) _, .cons head m.alike, .cons steady m.steady, same⟩

theorem Mirrors.push (m : Mirrors base base' above above' p p') (ruled : rule ∈ lineRules)
    (operator : rule.isOpener = false) (loose : opened above = [] → 2 ≤ rule.right) (named : tag'.text = tag.text) :
    ∃ left left', Mirrors base base' left left' (p.push rule tag) (p'.push rule tag') ∧ opened left = opened above ∧
      left ≠ [] := by
  have steady : Steady { Pending.leading rule tag with left := p.operand } above :=
    ⟨ruled, by simp [Pending.leading], fun outside => loose (by rwa [opened_operator operator] at outside)⟩
  exact ⟨_, _, m.lay ⟨rfl, named, m.operand, rfl, rfl⟩ steady operator rfl, opened_operator operator _,
    List.cons_ne_nil _ _⟩

theorem Upon.openBracket (upon : Upon base above p) (opens : rule.isOpener = true)
    (written : rule.bracketKind ≠ some .block) (tag : Tag) :
    Upon base ({ Pending.leading rule tag with left := p.operand } :: above) (p.openBracket rule tag) := by
  refine ⟨by simp [Parser.openBracket, Parser.push, upon.pending], ?_, upon.started, upon.rules⟩
  have layout : (p.openBracket rule tag).layout = .explicit :: p.layout := by
    simp [Parser.openBracket, Parser.push, written]
  rw [layout, opened_opener opens, upon.layout]
  rfl

/-- Room for an operand is made alike. -/
theorem Mirrors.separateOperands {place : Span} (fresh : base.Fresh) (floor : Floor base')
    (m : Mirrors base base' above above' p p') (place' : Span) (ok : p.separateOperands place = .ok q) :
    ∃ left left' q', p'.separateOperands place' = .ok q' ∧ Mirrors base base' left left' q q' ∧
      opened left = opened above ∧ q.operand = none := by
  unfold Parser.separateOperands at ok
  rw [Parser.separateOperands, m.isSome]
  split at ok
  · next behind =>
    rw [if_pos behind]
    obtain ⟨r, reduced, ok⟩ := bind_ok ok
    cases ok
    obtain ⟨_, _, r', reduced', m, brackets, -⟩ :=
      m.reduceLeft fresh floor behind (.inr (by decide)) (p'.tag " " (Span.point place'.start)) reduced
    have named : (p'.tag " " (Span.point place'.start)).text = (p.tag " " (Span.point place.start)).text := rfl
    obtain ⟨left, left', m, brackets', -⟩ := m.push (by decide +kernel : Rule.space ∈ lineRules) rfl
      (fun _ => by decide) named
    refine ⟨left, left', _, ?_, m, brackets'.trans brackets, rfl⟩
    rw [juxtapose, reduced']
    rfl
  · next absent =>
    rw [if_neg absent]
    cases ok
    exact ⟨above, above', p', rfl, m, rfl, by simpa using absent⟩

/-- The file is no parentheses, so that these are of the line. -/
theorem Mirrors.paren (fresh : base.Fresh) (m : Mirrors base base' above above' p p')
    (paren : (p.pending.head?).any Pending.isParen = true) :
    (above.head?).any Pending.isParen = true ∧ (p'.pending.head?).any Pending.isParen = true := by
  obtain ⟨tag, width, file, -⟩ := fresh
  rw [m.here.pending, file] at paren
  have alike := isParen_alike m.alike
  rw [m.there.pending]
  cases m.alike with
  | nil => cases paren
  | cons => exact ⟨paren, alike.trans paren⟩

/-- An infix operator of the line is taken alike. -/
theorem Mirrors.shiftInner (fresh : base.Fresh) (floor : Floor base') (m : Mirrors base base' above above' p p')
    (ruled : rule ∈ lineRules) (between : rule.fixity = .infixOp)
    (loose : opened above = [] → 2 ≤ rule.left ∧ 2 ≤ rule.right) (named : tag'.text = tag.text)
    (ok : p.shiftInner rule tag = .ok q) : ∃ left left' q', p'.shiftInner rule tag' = .ok q' ∧
      Mirrors base base' left left' q q' ∧ opened left = opened above ∧ left ≠ [] := by
  have operator : rule.isOpener = false := not_opener (by rw [between]; exact Fixity.noConfusion)
  have absent : p'.operand.isNone = p.operand.isNone := by
    rw [← Option.not_isSome, ← Option.not_isSome, m.isSome]
  unfold Parser.shiftInner at ok
  rw [Parser.shiftInner, absent]
  split at ok
  · next empty =>
    rw [if_pos empty]
    split at ok
    · next sections =>
      have paren := (Bool.and_eq_true_iff.1 sections).2
      obtain ⟨paren, paren'⟩ := m.paren fresh paren
      rw [paren', Bool.and_true, if_pos (Bool.and_eq_true_iff.1 sections).1]
      cases ok
      have steady : Steady { Pending.leading rule tag with missingLeft := true } above :=
        ⟨ruled, fun _ => paren, fun outside => (loose (by rwa [opened_operator operator] at outside)).2⟩
      exact ⟨_, _, _, rfl, m.lay ⟨rfl, named, rfl, rfl, rfl⟩ steady operator m.operand, opened_operator operator _,
        List.cons_ne_nil _ _⟩
    · cases ok
  · next present =>
    rw [if_neg present]
    have behind : p.operand.isSome = true := by simpa [Option.isSome_iff_ne_none] using present
    have inside : opened above ≠ [] ∨ 2 ≤ rule.left := by
      by_cases outside : opened above = []
      · exact .inr (loose outside).1
      · exact .inl outside
    cases continues : rule.prior with
    | some prior =>
      simp only [continues, between, reduceCtorEq, if_false] at ok ⊢
      obtain ⟨r, reduced, ok⟩ := bind_ok ok
      cases ok
      obtain ⟨_, _, r', reduced', m, brackets, -⟩ := m.reduceToPrior fresh tag' reduced
      obtain ⟨left, left', m, brackets', some⟩ :=
        m.push ruled operator (fun outside => (loose (brackets ▸ outside)).2) named
      exact ⟨left, left', _, by rw [reduced']; rfl, m, brackets'.trans brackets, some⟩
    | none =>
      simp only [continues, between, reduceCtorEq, if_false] at ok ⊢
      obtain ⟨r, reduced, ok⟩ := bind_ok ok
      cases ok
      obtain ⟨_, _, r', reduced', m, brackets, -⟩ := m.reduceLeft fresh floor behind inside tag' reduced
      obtain ⟨left, left', m, brackets', some⟩ :=
        m.push ruled operator (fun outside => (loose (brackets ▸ outside)).2) named
      exact ⟨left, left', _, by rw [reduced']; rfl, m, brackets'.trans brackets, some⟩

/-! ### Tokens -/

theorem listed_ruled : ∀ rule ∈ defaultRules, (∀ kind ∈ DeclarationKind.all, rule.symbol ≠ kind.keyword) →
    rule ∈ lineRules ∧ rule.fixity ≠ .postfixOp := by
  decide +kernel

theorem listed_opening : ∀ rule ∈ defaultRules, rule.fixity = .opening →
    rule.bracketKind ≠ some .block ∧ brackets.any (·.1 == rule.symbol) = true := by
  decide +kernel

theorem listed_closing : ∀ rule ∈ defaultRules, rule.fixity = .closing →
    brackets.any (·.1 == rule.symbol) = false ∧ brackets.any (·.2.1 == rule.symbol) = true := by
  decide +kernel

/-- The operators that are no brackets bind tighter than the separators among them. -/
theorem listed_operator : ∀ rule ∈ defaultRules, rule.fixity ≠ .opening → rule.fixity ≠ .closing →
    brackets.any (·.1 == rule.symbol) = false ∧ brackets.any (·.2.1 == rule.symbol) = false ∧
      (rule.symbol ≠ ";" → rule.symbol ≠ "," → 2 ≤ rule.left ∧ 2 ≤ rule.right) := by
  decide +kernel

theorem Mirrors.openBracket (m : Mirrors base base' above above' p p') (ruled : rule ∈ lineRules)
    (opens : rule.isOpener = true) (written : rule.bracketKind ≠ some .block) (named : tag'.text = tag.text) :
    ∃ left left', Mirrors base base' left left' (p.openBracket rule tag) (p'.openBracket rule tag') ∧
      opened left = rule :: opened above ∧ left ≠ [] := by
  have steady : Steady { Pending.leading rule tag with left := p.operand } above := by
    refine ⟨ruled, by simp [Pending.leading], fun outside => ?_⟩
    rw [opened_opener opens] at outside
    cases outside
  exact ⟨_, _, ⟨m.here.openBracket opens written tag, m.there.openBracket opens written tag',
    .cons ⟨rfl, named, m.operand, rfl, rfl⟩ m.alike, .cons steady m.steady, rfl⟩, opened_opener opens _,
    List.cons_ne_nil _ _⟩

theorem depthBehind_symbol {token : Token} {text : String} (word : token.symbol = some text) (depth : Nat) :
    token.depthBehind depth = if brackets.any (·.1 == text) then depth + 1
      else if brackets.any (·.2.1 == text) then depth - 1 else depth := by
  have flip (a : String) : (token.symbol == some a) = (a == text) := by
    rw [word, Option.some_beq_some, Bool.beq_comm]
  simp only [Token.depthBehind, flip]

/-- An operator of the line is taken alike. -/
theorem Mirrors.shiftOperator {token : Token} (fresh : base.Fresh) (floor : Floor base')
    (m : Mirrors base base' above above' p p') (stack : Stacked p.pending) (listed : rule ∈ defaultRules)
    (word : token.symbol = some rule.symbol) (plain : ¬token.Declares) (uncut : opened above = [] → ¬token.Separates)
    (named : tag'.text = tag.text) (ok : p.shiftOperator rule tag = .ok q) :
    ∃ left left' q', p'.shiftOperator rule tag' = .ok q' ∧ Mirrors base base' left left' q q' ∧
      (opened left).length = token.depthBehind (opened above).length ∧ (q.operand = none → left ≠ []) := by
  obtain ⟨ruled, postfixed⟩ := listed_ruled rule listed fun kind _ same => plain ⟨kind, by rw [word, same]⟩
  have loose (opens : rule.fixity ≠ .opening) (closes : rule.fixity ≠ .closing) (outside : opened above = []) :
      2 ≤ rule.left ∧ 2 ≤ rule.right := by
    refine (listed_operator rule listed opens closes).2.2 (fun same => ?_) fun same => ?_
    · exact uncut outside (.inl (by rw [word, same]))
    · exact uncut outside (.inr (by rw [word, same]))
  rw [depthBehind_symbol word]
  unfold Parser.shiftOperator at ok
  split at ok
  · next fixity =>
    obtain ⟨written, deeper⟩ := listed_opening rule listed fixity
    obtain ⟨r, separated, ok⟩ := bind_ok ok
    cases ok
    obtain ⟨_, _, r', separated', m, same, empty⟩ := m.separateOperands fresh floor tag'.span separated
    obtain ⟨left, left', m, more, some⟩ := m.openBracket ruled (by simp [Rule.isOpener, fixity]) written named
    refine ⟨left, left', _, ?_, m, ?_, fun _ => some⟩
    · simp only [Parser.shiftOperator, fixity, separated']
      rfl
    · rw [if_pos deeper, more, same, List.length_cons]
  · next fixity =>
    obtain ⟨plain, higher⟩ := listed_closing rule listed fixity
    obtain ⟨left, left', q', closed, m, opener, same⟩ := m.closeBracket fresh stack listed named ok
    refine ⟨left, left', q', ?_, m, ?_, ?_⟩
    · simp only [Parser.shiftOperator, fixity, closed]
    · rw [if_neg (Bool.eq_false_iff.1 plain), if_pos higher, same, List.length_cons, Nat.add_sub_cancel]
    · obtain ⟨edits, here, opens, partner, tree⟩ := closeBracket_ok ok
      simp
  · next fixity =>
    have opens : rule.fixity ≠ .opening := by rw [fixity]; exact Fixity.noConfusion
    have closes : rule.fixity ≠ .closing := by rw [fixity]; exact Fixity.noConfusion
    obtain ⟨first, second, -⟩ := listed_operator rule listed opens closes
    obtain ⟨r, separated, ok⟩ := bind_ok ok
    cases ok
    obtain ⟨_, _, r', separated', m, same, empty⟩ := m.separateOperands fresh floor tag'.span separated
    obtain ⟨left, left', m, same', some⟩ := m.push ruled (not_opener opens)
      (fun outside => (loose opens closes (same.symm.trans outside)).2) named
    refine ⟨left, left', _, ?_, m, ?_, fun _ => some⟩
    · simp only [Parser.shiftOperator, fixity, separated']
      rfl
    · rw [if_neg (Bool.eq_false_iff.1 first), if_neg (Bool.eq_false_iff.1 second), same', same]
  · next fixity =>
    have opens : rule.fixity ≠ .opening := by rw [fixity]; exact Fixity.noConfusion
    have closes : rule.fixity ≠ .closing := by rw [fixity]; exact Fixity.noConfusion
    obtain ⟨first, second, -⟩ := listed_operator rule listed opens closes
    obtain ⟨left, left', q', shifted, m, same, some⟩ :=
      m.shiftInner fresh floor ruled fixity (loose opens closes) named ok
    refine ⟨left, left', q', ?_, m, ?_, fun _ => some⟩
    · simp only [Parser.shiftOperator, fixity, shifted]
    · rw [if_neg (Bool.eq_false_iff.1 first), if_neg (Bool.eq_false_iff.1 second), same]
  · next fixity => exact absurd fixity postfixed

/-- A word without a rule is no bracket. -/
theorem unruled_bracket {text : String} (unruled : Registry.default.lookup text = Rule.operand text) :
    brackets.any (·.1 == text) = false ∧ brackets.any (·.2.1 == text) = false := by
  have none {rule : Rule} (listed : rule ∈ defaultRules) (operator : rule.reduction ≠ .operand) :
      rule.symbol ≠ text := by
    rintro rfl
    exact operator (congrArg Rule.reduction ((Registry.default_lookup listed).symm.trans unruled))
  constructor
  all_goals
    rw [Bool.eq_false_iff, Ne, List.any_eq_true]
    rintro ⟨b, inside, same⟩
  · exact none (brackets_facts b inside).1 Reduction.noConfusion (beq_iff_eq.1 same)
  · exact none (brackets_facts b inside).2.1 Reduction.noConfusion (beq_iff_eq.1 same)

/-- Neither the line nor what it lies on declares anything. -/
theorem Mirrors.undeclared (fresh : base.Fresh) (floor : Floor base') (m : Mirrors base base' above above' p p') :
    p.Undeclared ∧ p'.Undeclared := by
  have words : ∀ o ∈ above, ∀ kind, o.rule.reduction ≠ .declare kind := fun o inside kind => by
    obtain ⟨_, steady⟩ := m.steady.mem inside
    exact (lineRules_facts _ steady.ruled).1 kind (by cases kind <;> decide)
  have words' : ∀ o ∈ above', ∀ kind, o.rule.reduction ≠ .declare kind := fun o inside => by
    have listed : o.rule ∈ above.map Pending.rule := rules_alike m.alike ▸ List.mem_map_of_mem inside
    obtain ⟨o', inside', same⟩ := List.mem_map.1 listed
    exact same ▸ words o' inside'
  obtain ⟨tag, width, file, -⟩ := fresh
  refine ⟨⟨m.here.rules, ?_⟩, ⟨m.there.rules, ?_⟩⟩
  · rw [m.here.pending, file, List.forall_mem_append]
    refine ⟨words, fun o inside kind => ?_⟩
    rw [List.mem_singleton.1 inside]
    exact Reduction.noConfusion
  · rw [m.there.pending, List.forall_mem_append]
    exact ⟨words', floor.words⟩

theorem Mirrors.shiftOperand {t' : Tree} (fresh : base.Fresh) (floor : Floor base')
    (m : Mirrors base base' above above' p p') (agrees : t'.unlocated = t.unlocated) (ok : p.shiftOperand t = .ok q) :
    ∃ left left' q', p'.shiftOperand t' = .ok q' ∧ Mirrors base base' left left' q q' ∧ opened left = opened above ∧
      q.operand.isSome = true := by
  obtain ⟨r, separated, ok⟩ := bind_ok ok
  cases ok
  obtain ⟨left, left', r', separated', m, same, -⟩ := m.separateOperands fresh floor t'.span separated
  exact ⟨left, left', _, by rw [Parser.shiftOperand, separated']; rfl, m.put agrees, same, rfl⟩

theorem Mirrors.shiftSymbol {token : Token} {text : String} {span : Span} (fresh : base.Fresh)
    (floor : Floor base') (m : Mirrors base base' above above' p p') (stack : Stacked p.pending)
    (word : token.symbol = some text) (plain : ¬token.Declares) (uncut : opened above = [] → ¬token.Separates)
    (ok : p.shiftSymbol text span = .ok q) (span' : Span) :
    ∃ left left' q', p'.shiftSymbol text span' = .ok q' ∧ Mirrors base base' left left' q q' ∧
      (opened left).length = token.depthBehind (opened above).length ∧ (q.operand = none → left ≠ []) := by
  obtain ⟨u, u'⟩ := m.undeclared fresh floor
  rcases Registry.default_lookup_cases text with unruled | ⟨listed, named⟩
  · rw [u.shiftName unruled] at ok
    have agrees : (Tree.name (p'.tag text span')).unlocated = (Tree.name (p.tag text span)).unlocated := rfl
    obtain ⟨left, left', q', shifted, m, same, some⟩ := m.shiftOperand fresh floor agrees ok
    obtain ⟨opening, closing⟩ := unruled_bracket unruled
    refine ⟨left, left', q', by rw [u'.shiftName unruled, shifted], m, ?_, fun none => ?_⟩
    · rw [depthBehind_symbol word, if_neg (Bool.eq_false_iff.1 opening), if_neg (Bool.eq_false_iff.1 closing), same]
    · rw [none] at some
      cases some
  · generalize Registry.default.lookup text = rule at listed named
    subst named
    rw [u.shiftOperator listed] at ok
    rw [u'.shiftOperator listed]
    have same : (p'.tag rule.symbol span').text = (p.tag rule.symbol span).text := rfl
    exact m.shiftOperator fresh floor stack listed word plain uncut same ok

/-- A token of the line is taken alike. -/
theorem Mirrors.shift {token : Token} {span : Span} (fresh : base.Fresh) (floor : Floor base')
    (m : Mirrors base base' above above' p p') (stack : Stacked p.pending) (more : token ≠ .eof)
    (flat : ∀ width, token ≠ .newline width) (plain : ¬token.Declares) (uncut : opened above = [] → ¬token.Separates)
    (ok : p.shift token span = .ok q) (span' : Span) :
    ∃ left left' q', p'.shift token span' = .ok q' ∧ Mirrors base base' left left' q q' ∧
      (opened left).length = token.depthBehind (opened above).length ∧ (q.operand = none → left ≠ []) := by
  have leaf {t t' : Tree} (agrees : t'.unlocated = t.unlocated) (ok : p.shiftOperand t = .ok q) :
      ∃ left left' q', p'.shiftOperand t' = .ok q' ∧ Mirrors base base' left left' q q' ∧
        (opened left).length = (opened above).length ∧ (q.operand = none → left ≠ []) := by
    obtain ⟨left, left', q', shifted, m, same, some⟩ := m.shiftOperand fresh floor agrees ok
    refine ⟨left, left', q', shifted, m, by rw [same], fun none => ?_⟩
    rw [none] at some
    cases some
  cases token with
  | eof => exact (more rfl).elim
  | newline width => exact (flat width rfl).elim
  | int value => exact leaf (show (Tree.int value span').unlocated = (Tree.int value span).unlocated from rfl) ok
  | str bytes => exact leaf (show (Tree.str bytes span').unlocated = (Tree.str bytes span).unlocated from rfl) ok
  | char value => exact leaf (show (Tree.char value span').unlocated = (Tree.char value span).unlocated from rfl) ok
  | name text | operator text => exact m.shiftSymbol fresh floor stack rfl plain uncut ok span'

/-- The tokens of a line are taken alike. Behind the first of them there is an operand or an operator of the line. -/
theorem Mirrors.taking {xs ys : List Lexeme} (fresh : base.Fresh) (floor : Floor base')
    (m : Mirrors base base' above above' p p') (stack : Stacked p.pending)
    (same : ys.map Lexeme.token = xs.map Lexeme.token)
    (flat : ∀ x ∈ xs, x.token ≠ .eof ∧ (∀ width, x.token ≠ .newline width) ∧ ¬x.token.Declares)
    (uncut : Token.Uncut (opened above).length (xs.map Lexeme.token))
    (begun : xs ≠ [] ∨ (p.operand = none → above ≠ [])) (ok : p.taking xs = .ok q) :
    ∃ left left' q', p'.taking ys = .ok q' ∧ Mirrors base base' left left' q q' ∧ Stacked q.pending ∧
      (q.operand = none → left ≠ []) := by
  induction xs generalizing above above' p p' ys with
  | nil =>
    cases ok
    rw [List.map_nil, List.map_eq_nil_iff] at same
    subst same
    exact ⟨above, above', p', rfl, m, stack, begun.resolve_left fun some => some rfl⟩
  | cons x xs ih =>
    cases ys with
    | nil => cases same
    | cons y ys =>
      rw [List.map_cons, List.map_cons, List.cons.injEq] at same
      obtain ⟨first, same⟩ := same
      rw [List.forall_mem_cons] at flat
      obtain ⟨⟨more, width, plain⟩, flat⟩ := flat
      obtain ⟨cut, uncut⟩ := uncut
      obtain ⟨r, shifted, ok⟩ := bind_ok ok
      obtain ⟨left, left', r', shifted', m, depth, begun⟩ := m.shift fresh floor stack more width plain
        (fun outside => cut (by rw [outside]; rfl)) shifted y.span
      obtain ⟨last, last', q', taken, result⟩ :=
        ih m (stack.shifts (shift_ok shifted)) same flat (depth ▸ uncut) (.inr begun) ok
      refine ⟨last, last', q', ?_, result⟩
      rw [Parser.taking, List.foldlM_cons, first, shifted']
      exact taken

end Parser

end MixfixLambda
