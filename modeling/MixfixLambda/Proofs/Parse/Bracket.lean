import MixfixLambda.Proofs.Parse.Reading
import MixfixLambda.Proofs.Tree.Unlocated

/-!
# Reading what stands between brackets

Between its brackets a text is read as if nothing stood outside. `Parser.within` is the state there: the
operators of the bracket lie on its opener, and under the opener is what the parser was doing before.
What the closing bracket makes of them is decided by reduction, so that a text is followed up to the
operand that its operators reduce to, and not up to each of these operators.
-/
namespace MixfixLambda

/-- An operator behind its left operand. -/
def Pending.infixed (rule : Rule) (tag : Tag) (left : Tree) : Pending :=
  { Pending.leading rule tag with left := some left }

namespace Parser

/-- The state between brackets: operators, newest first, and the operand behind them. -/
def within (p : Parser) (opener : Pending) (operators : List Pending) (operand : Option Tree) : Parser :=
  { p with
    registry := p.registry.pushScope
    operand
    pending := operators ++ opener :: p.pending
    layout := .explicit :: p.layout }

variable {p q free : Parser} {opener top : Pending} {operators : List Pending} {t : Tree}

/-- An operand that says what a tree says has been taken, next to the operand before it if there was one. -/
def Took (p : Parser) (t : Tree) (q : Parser) : Prop :=
  q.Undeclared ∧ ∃ place free t', p.separateOperands place = .ok free ∧ t'.unlocated = t.unlocated ∧
    q = { free with operand := some t' }

/-- An operand can come next: there is none yet, or juxtaposition makes room for it. -/
def Accepts (p : Parser) : Prop :=
  ∀ place, ∃ free, p.separateOperands place = .ok free ∧ free.operand = none ∧ free.Undeclared

theorem separateOperands_none (empty : p.operand = none) (place : Span) :
    p.separateOperands place = .ok p := by
  rw [separateOperands, empty]
  rfl

theorem accepts_of_none (empty : p.operand = none) (u : p.Undeclared) : p.Accepts :=
  fun place => ⟨p, separateOperands_none empty place, empty, u⟩

theorem Took.of_none (empty : p.operand = none) (took : p.Took t q) :
    ∃ t', t'.unlocated = t.unlocated ∧ q = { p with operand := some t' } := by
  obtain ⟨-, place, free, t', separated, same, rfl⟩ := took
  rw [separateOperands_none empty] at separated
  cases separated
  exact ⟨t', same, rfl⟩

theorem undeclared_within (u : free.Undeclared) (bracket : ∀ kind, opener.rule.reduction ≠ .declare kind)
    (plain : ∀ o ∈ operators, ∀ kind, o.rule.reduction ≠ .declare kind) (operand : Option Tree) :
    (free.within opener operators operand).Undeclared := by
  refine ⟨u.rules, fun o inside => ?_⟩
  rcases List.mem_append.1 inside with inside | inside
  · exact plain o inside
  · rcases List.mem_cons.1 inside with rfl | inside
    · exact bracket
    · exact u.words o inside

/-! ### Reduction -/

theorem reduceLeft_opener {below : List Pending} (here : p.pending = opener :: below)
    (opens : opener.rule.isOpener = true) (incoming : Rule) (tag : Tag) :
    p.reduceLeft incoming tag = .ok p := by
  rw [reduceLeft.eq_def]
  split
  · next found =>
    rw [here] at found
    cases found
    rw [if_pos opens]
  · rfl

/-- Separators of the same precedence wait for each other. -/
theorem reduceLeft_right {below : List Pending} {incoming : Rule} (here : p.pending = top :: below)
    (operator : top.rule.isOpener = false) (same : top.rule.right = incoming.left)
    (right : top.rule.assoc = .right ∧ incoming.assoc = .right) (tag : Tag) :
    p.reduceLeft incoming tag = .ok p := by
  rw [reduceLeft.eq_def]
  split
  · next found =>
    rw [here] at found
    cases found
    simp [operator, bindsTighter, same, right]
  · rfl

theorem reduceToOpener_opener {below : List Pending} (here : p.pending = opener :: below)
    (opens : opener.rule.isOpener = true) : p.reduceToOpener = .ok p := by
  rw [reduceToOpener.eq_def]
  split
  · next found =>
    rw [here] at found
    cases found
  · next found =>
    rw [here] at found
    cases found
    rw [if_pos opens]

theorem reduceToOpener_step {below : List Pending} {right : Tree} (here : p.pending = top :: below)
    (operator : top.rule.isOpener = false) (operand : p.operand = some right)
    (reduced : p.reduceTop top below right = .ok q) : p.reduceToOpener = q.reduceToOpener := by
  rw [reduceToOpener.eq_def]
  split
  · next found =>
    rw [here] at found
    cases found
  · next found =>
    rw [here] at found
    cases found
    rw [operator, if_neg Bool.false_ne_true]
    split
    · next none =>
      rw [operand] at none
      cases none
    · next some =>
      rw [operand] at some
      cases some
      split
      · next failed =>
        rw [reduced] at failed
        cases failed
      · next found =>
        rw [reduced] at found
        cases found
        rfl

/-- What an infix operator behind its left operand makes of both operands. -/
theorem reduceTop_infixed {rule : Rule} (start : rule.prior = none) (between : rule.fixity = .infixOp)
    (p : Parser) (tag : Tag) (left right : Tree) (below : List Pending) :
    p.reduceTop (.infixed rule tag left) below right =
      .ok { p with
        operand := some (Tree.ofInfix rule.reduction tag left right)
        pending := below } := by
  simp [reduceTop, Pending.infixed, Pending.leading, start, between]

/-- What the parser holds between brackets reduces to one operand over the given operators. -/
def Reaches (free : Parser) (opener : Pending) (operators : List Pending) (t : Tree) (q : Parser) :
    Prop :=
  q.Undeclared ∧ q.operand.isSome = true ∧ ∃ t', t'.unlocated = t.unlocated ∧
    q.reduceToOpener = (free.within opener operators (some t')).reduceToOpener

theorem Took.of_within (took : (free.within opener operators none).Took t q) :
    ∃ t', t'.unlocated = t.unlocated ∧ q = free.within opener operators (some t') :=
  took.of_none rfl

theorem Took.reaches (took : (free.within opener operators none).Took t q) :
    Reaches free opener operators t q := by
  obtain ⟨t', same, here⟩ := took.of_within
  exact ⟨took.1, by rw [here]; rfl, t', same, by rw [here]⟩

/-- Once the last operand is there, an operator gives way to its tree. -/
theorem Reaches.reduce {right whole : Tree} {below : List Pending}
    (reaches : Reaches free opener (top :: operators) right q) (operator : top.rule.isOpener = false)
    (makes : ∀ right' : Tree, right'.unlocated = right.unlocated →
      ∃ whole', whole'.unlocated = whole.unlocated ∧
        (free.within opener (top :: operators) (some right')).reduceTop top
          (operators ++ opener :: free.pending) right' = .ok (free.within opener below (some whole'))) :
    Reaches free opener below whole q := by
  obtain ⟨u, operand, right', same, reduced⟩ := reaches
  obtain ⟨whole', same', made⟩ := makes right' same
  exact ⟨u, operand, whole', same', reduced.trans (reduceToOpener_step rfl operator rfl made)⟩

theorem Reaches.infixed {rule : Rule} {tag : Tag} {left right whole : Tree}
    (reaches : Reaches free opener (.infixed rule tag left :: operators) right q)
    (start : rule.prior = none) (between : rule.fixity = .infixOp)
    (makes : ∀ right' : Tree, right'.unlocated = right.unlocated →
      (Tree.ofInfix rule.reduction tag left right').unlocated = whole.unlocated) :
    Reaches free opener operators whole q := by
  refine reaches.reduce ?_ fun right' same => ⟨_, makes right' same, reduceTop_infixed start between ..⟩
  simp [Pending.infixed, Pending.leading, Rule.isOpener, between]

/-! ### Opening and closing -/

theorem shiftOperator_opening {rule : Rule} {tag : Tag} (opens : rule.fixity = .opening)
    (written : rule.bracketKind ≠ some .block) (separated : p.separateOperands tag.span = .ok free)
    (empty : free.operand = none) :
    p.shiftOperator rule tag = .ok (free.within (.leading rule tag) [] none) := by
  simp only [shiftOperator, opens, separated, bind, Except.bind, pure, Except.pure]
  simp [openBracket, push, within, Pending.leading, written, empty]

theorem dropSeparators_some (operand : p.operand.isSome = true) : p.dropSeparators = p := by
  obtain ⟨t, here⟩ := Option.isSome_iff_exists.1 operand
  unfold dropSeparators eraseSeparators
  simp only [here]
  rw [← here]

/-- In front of a closing bracket nothing has to be supplied behind an operand. -/
theorem completes_some (operand : p.operand.isSome = true) :
    p.dropSeparators.completeSection = .ok p := by
  rw [dropSeparators_some operand]
  obtain ⟨t, here⟩ := Option.isSome_iff_exists.1 operand
  simp [completeSection, here]

/-- A closing bracket makes a tree of what the bracket has been reduced to, and leaves the rest of the
parser as it was before the bracket. -/
theorem closeBracket_within {closing : Rule} {tag : Tag} {kind : BracketKind} {content : Option Tree}
    {completed : Parser} (completes : q.dropSeparators.completeSection = .ok completed)
    (reduces : completed.reduceToOpener = .ok (free.within opener [] content))
    (opens : opener.rule.isOpener = true) (partner : opener.rule.partner = some closing.symbol)
    (kind_ : opener.rule.bracketKind = some kind) (u : free.Undeclared) (empty : free.operand = none) :
    q.closeBracket closing tag = free.putBracket kind opener tag content opener.sectioned := by
  have left : ({ free.within opener [] content with operand := none, pending := free.pending } :
      Parser).leaveScope = free := by
    obtain ⟨registry, operand, pending, layout, started, origin⟩ := free
    cases empty
    simp only [leaveScope, within, List.tail_cons, Undeclared.popScope u]
  have taken : (free.within opener [] content).popBracket tag =
      .ok (content, opener, { free.within opener [] content with operand := none, pending := free.pending }) := by
    simp [popBracket, within, opens]
  simp only [closeBracket, completes, reduces, taken, partner, if_true, kind_, Option.getD_some, left, bind,
    Except.bind]

/-- The brackets that a source is written with. -/
def brackets : List (String × String × BracketKind) :=
  [("(", ")", .paren), ("[", "]", .square), ("\x7b", "\x7d", .brace)]

theorem brackets_facts : ∀ b ∈ brackets,
    Rule.opening b.1 b.2.1 b.2.2 ∈ defaultRules ∧ Rule.closing b.2.1 b.1 b.2.2 ∈ defaultRules ∧
      b.2.2 ≠ .block := by
  decide +kernel

theorem brackets_words {b : String × String × BracketKind} (bracket : b ∈ brackets)
    (rest : List Char) : SpellsWord b.1.toList rest ∧ SpellsWord b.2.1.toList rest := by
  fin_cases bracket <;> exact ⟨Cursor.spellsWord_punctuation rfl, Cursor.spellsWord_punctuation rfl⟩

/-- A bracket is an operand if what stands between becomes its tree. -/
theorem takes_brackets {b : String × String × BracketKind} (bracket : b ∈ brackets)
    {inner rest : List Char} (accepts : p.Accepts) (u : p.Undeclared)
    (inside : ∀ (free : Parser) (tag : Tag), free.Undeclared → free.operand = none →
      (free.within (.leading (.opening b.1 b.2.1 b.2.2) tag) [] none).Takes inner
        (b.2.1.toList ++ rest) fun q => q.Undeclared ∧ ∀ closing, ∃ t', t'.unlocated = t.unlocated ∧
          q.closeBracket (.closing b.2.1 b.1 b.2.2) closing = .ok { free with operand := some t' }) :
    p.Takes (b.1.toList ++ inner ++ b.2.1.toList) rest (p.Took t) := by
  obtain ⟨opening, closing, written⟩ := brackets_facts b bracket
  have opened : p.Takes b.1.toList (inner ++ b.2.1.toList ++ rest) fun q =>
      ∃ free tag, (∃ place, p.separateOperands place = .ok free) ∧ free.operand = none ∧
        free.Undeclared ∧ q = free.within (.leading (.opening b.1 b.2.1 b.2.2) tag) [] none := by
    refine takes_word (brackets_words bracket _).1 fun span => ?_
    obtain ⟨free, separated, empty, u'⟩ := accepts span
    refine ⟨_, ?_, free, p.tag b.1 span, ⟨span, separated⟩, empty, u', rfl⟩
    refine (u.shiftOperator opening span).trans (shiftOperator_opening rfl ?_ separated empty)
    simpa [Rule.opening, Rule.bracketKind] using written
  have whole : p.Takes (b.1.toList ++ (inner ++ b.2.1.toList)) rest (p.Took t) := by
    refine opened.append ?_
    rintro _ ⟨free, tag, ⟨place, separated⟩, empty, u', rfl⟩
    refine (inside free tag u' empty).append ?_
    rintro q ⟨uq, closes⟩
    refine takes_word (brackets_words bracket _).2 fun span => ?_
    obtain ⟨t', same, closed⟩ := closes (q.tag b.2.1 span)
    refine ⟨_, (uq.shiftOperator closing span).trans closed, ⟨u'.rules, u'.words⟩, place, free, t',
      separated, same, rfl⟩
  rwa [← List.append_assoc] at whole

/-- What the operators of a bracket reduce to becomes its content. -/
theorem Reaches.closes {closing : Rule} {kind : BracketKind} (tag : Tag)
    (reaches : Reaches free opener [] t q) (opens : opener.rule.isOpener = true)
    (partner : opener.rule.partner = some closing.symbol)
    (kind_ : opener.rule.bracketKind = some kind) (u : free.Undeclared) (empty : free.operand = none) :
    ∃ t', t'.unlocated = t.unlocated ∧ q.closeBracket closing tag =
      free.putBracket kind opener tag (some t') opener.sectioned := by
  obtain ⟨-, operand, t', same, reduced⟩ := reaches
  have reduces := reduced.trans (reduceToOpener_opener rfl opens)
  exact ⟨t', same, closeBracket_within (completes_some operand) reduces opens partner kind_ u empty⟩

end Parser

end MixfixLambda
