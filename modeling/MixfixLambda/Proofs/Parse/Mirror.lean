import MixfixLambda.Proofs.Parse.Commas
import MixfixLambda.Proofs.Parse.Sections
import MixfixLambda.Proofs.Parse.Source
import MixfixLambda.Proofs.Tree.Congruence

/-!
# A line is read alike wherever it begins

What the parser does with the tokens of a line depends on the operators of the line, not on those under them, as long
as a line of its own would be accepted. So the same line is followed in two states at once: in one the file lies under
it, in the other any bracket or separator.
-/
namespace MixfixLambda

namespace Pending

/-- Two operators that wait for the same, wherever they and their operands stand. -/
structure Alike (o o' : Pending) : Prop where
  rule : o'.rule = o.rule
  text : o'.tag.text = o.tag.text
  left : o'.left.map Tree.unlocated = o.left.map Tree.unlocated
  missingLeft : o'.missingLeft = o.missingLeft
  sectioned : o'.sectioned = o.sectioned

theorem Alike.held {top top' : Pending} (alike : Alike top top') :
    ∀ left ∈ top.left, ∃ left', top'.left = some left' ∧ left'.unlocated = left.unlocated := by
  intro left held
  have given := alike.left
  rwa [held, Option.map_some, Option.map_eq_some_iff] at given

end Pending

namespace Parser

variable {base base' p p' q : Parser} {o o' top top' file : Pending} {above above' below floor rest : List Pending}
  {right right' t : Tree} {rule : Rule} {tag tag' : Tag}

/-! ### The operators of a line -/

/-- The rules of the operators of a line: juxtaposition, and the default grammar without declarations. -/
def lineRules : List Rule :=
  Rule.space :: defaultRules.filter fun rule => DeclarationKind.all.all (·.keyword != rule.symbol)

/-- No rule of a line is a declaration, no chain is continued from nothing or from a bracket, and all operators but
the separators bind tighter than these. -/
theorem lineRules_facts : ∀ rule ∈ lineRules, (∀ kind ∈ DeclarationKind.all, rule.reduction ≠ .declare kind) ∧
    rule.prior ≠ some "" ∧ (∀ rule' ∈ lineRules, rule.prior = some rule'.symbol → rule'.isOpener = false) ∧
    (rule.isSeparator = true → rule.isOpener = false) := by
  decide +kernel

/-- An operator of a line: it lacks its left operand only directly in parentheses, and outside of all brackets it is
no separator. -/
structure Steady (o : Pending) (below : List Pending) : Prop where
  ruled : o.rule ∈ lineRules
  missing : o.missingLeft = true → (below.head?).any Pending.isParen = true
  loose : opened (o :: below) = [] → 2 ≤ o.rule.right

theorem steady_unmarked : Unmarked Steady where
  under {o below} steady := by
    refine ⟨steady.ruled, fun missing => ?_, fun outside => ?_⟩
    · rw [paren_markSection]
      exact steady.missing missing
    · refine steady.loose ?_
      rw [← outside]
      simp [opened, rule_markSection]
  here _ steady := ⟨steady.ruled, steady.missing, steady.loose⟩

theorem rules_alike (alike : List.Forall₂ Pending.Alike above above') :
    above'.map Pending.rule = above.map Pending.rule := by
  induction alike with
  | nil => rfl
  | cons head _ ih => rw [List.map_cons, List.map_cons, head.rule, ih]

theorem opened_alike (alike : List.Forall₂ Pending.Alike above above') : opened above' = opened above := by
  rw [opened, rules_alike alike, opened]

theorem markSection_alike (alike : List.Forall₂ Pending.Alike above above') :
    List.Forall₂ Pending.Alike (markSection above) (markSection above') := by
  induction alike with
  | nil => exact .nil
  | cons head rest ih =>
    unfold markSection
    have rule := head.rule
    split
    · next opens =>
      rw [if_pos (rule ▸ opens)]
      exact .cons ⟨rule, head.text, head.left, head.missingLeft, rfl⟩ rest
    · next operator =>
      rw [if_neg (rule ▸ operator)]
      exact .cons head ih

theorem markSection_append (paren : (above.head?).any Pending.isParen = true) (below : List Pending) :
    markSection (above ++ below) = markSection above ++ below := by
  cases above with
  | nil => cases paren
  | cons o above => rw [List.cons_append, markSection_paren paren, markSection_paren paren, List.cons_append]

theorem isParen_alike (alike : List.Forall₂ Pending.Alike above above') :
    (above'.head?).any Pending.isParen = (above.head?).any Pending.isParen := by
  cases alike with
  | nil => rfl
  | cons head => simp [Pending.isParen, head.rule]

/-! ### Two states in the same line -/

/-- The state in a line that has begun in the state `base`, with these operators of the line. -/
structure Upon (base : Parser) (above : List Pending) (p : Parser) : Prop where
  pending : p.pending = above ++ base.pending
  layout : p.layout = (opened above).map (fun _ => Layout.explicit) ++ base.layout
  started : p.started = base.started
  rules : p.registry.entries = Registry.default.entries

/-- Two states in the same line, each where it has begun. -/
structure Mirrors (base base' : Parser) (above above' : List Pending) (p p' : Parser) : Prop where
  here : Upon base above p
  there : Upon base' above' p'
  alike : List.Forall₂ Pending.Alike above above'
  steady : Stackwise Steady above
  operand : p'.operand.map Tree.unlocated = p.operand.map Tree.unlocated

theorem Upon.replace (upon : Upon base above p) (brackets : opened below = opened above) (operand : Option Tree) :
    Upon base below { p with operand, pending := below ++ base.pending } :=
  ⟨rfl, brackets ▸ upon.layout, upon.started, upon.rules⟩

/-- What happens inside of a bracket, in both states. -/
theorem Mirrors.replace {operand operand' : Option Tree} (m : Mirrors base base' above above' p p')
    (alike : List.Forall₂ Pending.Alike below rest) (steady : Stackwise Steady below)
    (brackets : opened below = opened above) (same : operand'.map Tree.unlocated = operand.map Tree.unlocated) :
    Mirrors base base' below rest { p with operand, pending := below ++ base.pending }
      { p' with operand := operand', pending := rest ++ base'.pending } := by
  refine ⟨m.here.replace brackets _, m.there.replace ?_ _, alike, steady, same⟩
  rw [opened_alike alike, opened_alike m.alike, brackets]

theorem reduceMixfix_first (start : top.rule.prior = none) (parts : List Tag) (operands : List Tree) :
    p.reduceMixfix parts operands top below =
      if top.rule.fixity = .infixOp then
        top.left.elim (p.refuseOperand top.tag) fun left => .ok (.mixfix (top.tag :: parts) (left :: operands), below)
      else .ok (.mixfix (top.tag :: parts) operands, below) := by
  rw [reduceMixfix.eq_def]
  simp only [start]
  cases top.left <;> rfl

theorem reduceMixfix_next {prior : String} (continues : top.rule.prior = some prior) (held : top.left = some t)
    (symbol : o.rule.symbol = prior) (parts : List Tag) (operands : List Tree) :
    p.reduceMixfix parts operands top (o :: below) =
      p.reduceMixfix (top.tag :: parts) (t :: operands) o below := by
  rw [reduceMixfix.eq_def]
  simp only [continues, held, symbol, if_true]

theorem reduceMixfix_next_ok {prior : String} {parts : List Tag} {operands : List Tree}
    (continues : top.rule.prior = some prior)
    (ok : p.reduceMixfix parts operands top (o :: below) = .ok (t, rest)) :
    ∃ left, top.left = some left ∧ o.rule.symbol = prior ∧
      p.reduceMixfix (top.tag :: parts) (left :: operands) o below = .ok (t, rest) := by
  rw [reduceMixfix.eq_def] at ok
  simp only [continues] at ok
  cases held : top.left with
  | none =>
    rw [held] at ok
    cases ok
  | some left =>
    rw [held] at ok
    dsimp only at ok
    split at ok
    · next symbol => exact ⟨left, rfl, symbol, ok⟩
    · cases ok

section Chains

variable {parts parts' : List Tag} {operands operands' : List Tree}

/-- The first part of a chain makes its tree. -/
theorem reduceMixfix_first_mirrors (p' : Parser) (alike : Pending.Alike top top') (start : top.rule.prior = none)
    (named : parts'.map Tag.unlocated = parts.map Tag.unlocated)
    (same : operands'.map Tree.unlocated = operands.map Tree.unlocated)
    (ok : p.reduceMixfix parts operands top below = .ok (t, rest)) :
    rest = below ∧ ∃ t', t'.unlocated = t.unlocated ∧
      ∀ floor, p'.reduceMixfix parts' operands' top' floor = .ok (t', floor) := by
  have made {left left' : List Tree} (agrees : left'.map Tree.unlocated = left.map Tree.unlocated) :
      (Tree.mixfix (top'.tag :: parts') left').unlocated = (Tree.mixfix (top.tag :: parts) left).unlocated := by
    simp only [Tree.unlocated, Tree.unlocatedEach_eq_map, List.map_cons, Tag.unlocated_congr alike.text, named, agrees]
  have start' : top'.rule.prior = none := by rw [alike.rule, start]
  rw [reduceMixfix_first start] at ok
  split at ok
  · next between =>
    cases here : top.left with
    | some left =>
      rw [here] at ok
      cases ok
      obtain ⟨left', there, agrees⟩ := alike.held left here
      have more : (left' :: operands').map Tree.unlocated = (left :: operands).map Tree.unlocated := by
        rw [List.map_cons, List.map_cons, agrees, same]
      refine ⟨rfl, _, made more, fun floor => ?_⟩
      rw [reduceMixfix_first start', alike.rule, if_pos between, there]
      rfl
    | none =>
      rw [here] at ok
      cases ok
  · next leads =>
    cases ok
    refine ⟨rfl, _, made same, fun floor => ?_⟩
    rw [reduceMixfix_first start', alike.rule, if_neg leads]

/-- A chain lies in the line as a whole, so that it is collected alike. -/
theorem reduceMixfix_mirrors (p' : Parser) (alike : List.Forall₂ Pending.Alike (top :: above) (top' :: above'))
    (ruled : ∀ o ∈ top :: above, o.rule ∈ lineRules) (named : parts'.map Tag.unlocated = parts.map Tag.unlocated)
    (same : operands'.map Tree.unlocated = operands.map Tree.unlocated) (floor : List Pending)
    (ok : p.reduceMixfix parts operands top (above ++ [.leading fileRule tag]) = .ok (t, rest)) :
    ∃ left left' t', rest = left ++ [.leading fileRule tag] ∧ left <:+ above ∧ opened left = opened above ∧
      List.Forall₂ Pending.Alike left left' ∧ t'.unlocated = t.unlocated ∧
      p'.reduceMixfix parts' operands' top' (above' ++ floor) = .ok (t', left' ++ floor) := by
  induction above generalizing top top' above' parts parts' operands operands' with
  | nil =>
    obtain ⟨head, rest⟩ := List.forall₂_cons.1 alike
    cases start : top.rule.prior with
    | none =>
      obtain ⟨rfl, t', agrees, collected⟩ := reduceMixfix_first_mirrors p' head start named same ok
      exact ⟨[], above', t', rfl, List.suffix_rfl, rfl, rest, agrees, collected _⟩
    | some prior =>
      -- Below the line lies the file, which no chain goes on behind.
      obtain ⟨_, -, same, -⟩ := reduceMixfix_next_ok start ok
      have continued := (lineRules_facts _ (ruled _ (List.mem_cons_self ..))).2.1
      exact absurd (start.trans (congrArg some same.symm)) continued
  | cons previous above ih =>
    obtain ⟨head, rest⟩ := List.forall₂_cons.1 alike
    cases start : top.rule.prior with
    | none =>
      obtain ⟨rfl, t', agrees, collected⟩ := reduceMixfix_first_mirrors p' head start named same ok
      exact ⟨_, above', t', rfl, List.suffix_rfl, rfl, rest, agrees, collected _⟩
    | some prior =>
      obtain ⟨previous', above', alike', others, rfl⟩ := List.forall₂_cons_left_iff.1 rest
      have continues' : top'.rule.prior = some prior := by rw [head.rule, start]
      rw [List.forall_mem_cons] at ruled
      obtain ⟨left, here, symbol, ok⟩ := reduceMixfix_next_ok start ok
      obtain ⟨left', there, agrees⟩ := head.held left here
      have operator : previous.rule.isOpener = false :=
        (lineRules_facts _ ruled.1).2.2.1 _ (ruled.2 _ (List.mem_cons_self ..))
          (start.trans (congrArg some symbol.symm))
      have more : (left' :: operands').map Tree.unlocated = (left :: operands).map Tree.unlocated := by
        rw [List.map_cons, List.map_cons, agrees, same]
      have parted : (top'.tag :: parts').map Tag.unlocated = (top.tag :: parts).map Tag.unlocated := by
        rw [List.map_cons, List.map_cons, Tag.unlocated_congr head.text, named]
      obtain ⟨left, left', t', split, suffix, brackets, alike, made, collected⟩ :=
        ih (.cons alike' others) ruled.2 parted more ok
      refine ⟨left, left', t', split, suffix.trans (List.suffix_cons ..), ?_, alike, made, ?_⟩
      · rw [brackets, opened_operator operator]
      · rw [List.cons_append, reduceMixfix_next continues' there (by rw [alike'.rule, symbol]), collected]

end Chains

/-! ### Reductions -/

/-- A reduction of an operator of the line, in both states. -/
theorem Mirrors.reduceTop (fresh : base.Fresh) (m : Mirrors base base' (top :: above) (top' :: above') p p')
    (operator : top.rule.isOpener = false) (same : right'.unlocated = right.unlocated)
    (ok : p.reduceTop top (above ++ base.pending) right = .ok q) :
    ∃ left left' q', p'.reduceTop top' (above' ++ base'.pending) right' = .ok q' ∧
      Mirrors base base' left left' q q' ∧ opened left = opened (top :: above) ∧ q.operand.isSome = true := by
  obtain ⟨tag, width, floor, -⟩ := fresh
  obtain ⟨head, rest⟩ := List.forall₂_cons.1 m.alike
  have under := (opened_operator operator above).symm
  have ruled : ∀ o ∈ top :: above, o.rule ∈ lineRules := fun o inside => by
    obtain ⟨_, holds⟩ := m.steady.mem inside
    exact holds.ruled
  have plain {t t' : Tree} (agrees : t'.unlocated = t.unlocated) := m.replace rest m.steady.tail under
    (show (some t').map Tree.unlocated = (some t).map Tree.unlocated from congrArg some agrees)
  unfold Parser.reduceTop at ok
  split at ok
  · next continues =>
    rw [Parser.reduceTop, head.rule, if_pos continues]
    split at ok
    · cases ok
    · next t left collected =>
      cases ok
      rw [floor] at collected
      have last : [right'].map Tree.unlocated = [right].map Tree.unlocated := congrArg (fun t => [t]) same
      obtain ⟨left, left', t', rfl, suffix, brackets, alike, agrees, collected'⟩ :=
        reduceMixfix_mirrors p' m.alike ruled rfl last base'.pending collected
      rw [collected', ← floor]
      have whole : (some t').map Tree.unlocated = (some t).map Tree.unlocated := congrArg some agrees
      obtain ⟨front, rfl⟩ := suffix
      exact ⟨left, left', _, rfl, m.replace alike m.steady.tail.suffix (brackets.trans under) whole,
        brackets.trans under, rfl⟩
  · next start =>
    rw [Parser.reduceTop, head.rule, head.missingLeft, if_neg start]
    split at ok
    · next leads =>
      rw [if_pos leads]
      cases reduction : top.rule.reduction with
      | erase =>
        simp only [reduction] at ok ⊢
        cases ok
        exact ⟨above, above', _, rfl, plain same, under, rfl⟩
      | declare kind =>
        have undeclared := (lineRules_facts _ (ruled top (List.mem_cons_self ..))).1 kind (by cases kind <;> decide)
        exact absurd reduction undeclared
      | _ =>
        simp only [reduction] at ok ⊢
        cases ok
        refine ⟨above, above', _, rfl, plain ?_, under, rfl⟩
        simp only [Tree.unlocated, Tag.unlocated_congr head.text, same]
    · next behind =>
      rw [if_neg behind]
      split at ok
      · next missing =>
        rw [if_pos missing]
        cases ok
        have paren := m.steady.head.missing missing
        rw [markSection_append paren, markSection_append ((isParen_alike rest).trans paren)]
        have brackets : opened (markSection above) = opened (top :: above) := (opened_markSection above).trans under
        refine ⟨_, _, _, rfl, m.replace (markSection_alike rest) (m.steady.tail.markSection steady_unmarked) brackets
          (congrArg some (Tree.ofInfix_congr _ head.text ?_ same)), brackets, rfl⟩
        simp only [Tree.unlocated]
      · next given =>
        rw [if_neg given]
        split at ok
        · next left here =>
          cases ok
          obtain ⟨left', there, agrees⟩ := head.held left here
          rw [there]
          exact ⟨above, above', _, rfl, plain (Tree.ofInfix_congr _ head.text agrees same), under, rfl⟩
        · cases ok

/-- What a line lies on: a bracket, or an operator as loose as a separator, in a source without declarations. -/
structure Floor (base : Parser) : Prop where
  front : ∃ o below, base.pending = o :: below ∧ (o.rule.isOpener = true ∨ o.rule.right = 1)
  words : ∀ o ∈ base.pending, ∀ kind, o.rule.reduction ≠ .declare kind

/-- An operator that waits is one of the line, as the file is a bracket. -/
theorem Mirrors.waiting (fresh : base.Fresh) (m : Mirrors base base' above above' p p')
    (here : p.pending = top :: below) (operator : top.rule.isOpener = false) :
    ∃ upper top' upper', above = top :: upper ∧ above' = top' :: upper' ∧
      Pending.Alike top top' ∧ below = upper ++ base.pending ∧ p'.pending = top' :: (upper' ++ base'.pending) := by
  obtain ⟨tag, width, floor, -⟩ := fresh
  have split := m.here.pending
  rw [here] at split
  cases m.alike with
  | nil =>
    rw [List.nil_append, floor] at split
    cases split
    cases operator
  | cons head rest =>
    obtain ⟨rfl, rfl⟩ := List.cons.inj split
    exact ⟨_, _, _, rfl, rfl, head, rfl, m.there.pending⟩

theorem Mirrors.behind (m : Mirrors base base' above above' p p') (operand : p.operand = some right) :
    ∃ right', p'.operand = some right' ∧ right'.unlocated = right.unlocated := by
  have same := m.operand
  rwa [operand, Option.map_some, Option.map_eq_some_iff] at same

theorem Mirrors.isSome (m : Mirrors base base' above above' p p') : p'.operand.isSome = p.operand.isSome := by
  rw [← Option.isSome_map, m.operand, Option.isSome_map]

variable {incoming : Rule}

theorem reduceLeft_waits (here : p.pending = top :: below) (operand : p.operand = some right)
    (operator : top.rule.isOpener = false) (waits : top.rule.Waits incoming) (tag : Tag) :
    p.reduceLeft incoming tag = .ok p := by
  rw [reduceLeft_cons here operand _ _ operator, bindsTighter_ok_false.2 waits]

/-- An operator that is no separator reduces nothing of what the line lies on. -/
theorem Floor.reduceLeft (floor : Floor base) (here : p.pending = base.pending) (operand : p.operand = some right)
    (loose : 2 ≤ incoming.left) (tag : Tag) : p.reduceLeft incoming tag = .ok p := by
  obtain ⟨o, below, found, kind⟩ := floor.front
  rw [found] at here
  by_cases opens : o.rule.isOpener = true
  · exact reduceLeft_opener here opens _ _
  · have one := kind.resolve_left opens
    exact reduceLeft_waits here operand (Bool.eq_false_iff.2 opens) (.inl (by omega)) tag

/-- An incoming operator reduces the same operators in both states. -/
theorem Mirrors.reduceLeft (fresh : base.Fresh) (floor : Floor base') (m : Mirrors base base' above above' p p')
    (present : p.operand.isSome = true) (inside : opened above ≠ [] ∨ 2 ≤ incoming.left) (tag' : Tag)
    (ok : p.reduceLeft incoming tag = .ok q) : ∃ left left' q', p'.reduceLeft incoming tag' = .ok q' ∧
      Mirrors base base' left left' q q' ∧ opened left = opened above ∧ q.operand.isSome = true := by
  fun_induction Parser.reduceLeft p incoming tag generalizing above above' p' with
  | case1 p right top below here operand opens =>
    cases ok
    refine ⟨above, above', p', ?_, m, rfl, present⟩
    obtain ⟨right', operand', -⟩ := m.behind operand
    have pending := m.there.pending
    have found := m.here.pending
    -- Only above the file a line of one operand stops at an opener; elsewhere it may lie on a separator.
    cases m.alike with
    | nil => exact floor.reduceLeft pending operand' (inside.resolve_left fun none => none rfl) tag'
    | cons head =>
      rw [here] at found
      cases found
      exact reduceLeft_opener pending (by rw [head.rule, opens]) _ _
  | case3 p right top below here operand closed stays =>
    cases ok
    obtain ⟨right', operand', -⟩ := m.behind operand
    have operator := Bool.eq_false_iff.2 closed
    obtain ⟨upper, top', upper', rfl, rfl, head, -, pending⟩ := m.waiting fresh here operator
    have waits := bindsTighter_ok_false.1 stays
    rw [← head.rule] at operator waits
    exact ⟨_, _, p', reduceLeft_waits pending operand' operator waits tag', m, rfl, present⟩
  | case6 p right top below here operand closed tighter given q' reduced ih =>
    obtain ⟨right', operand', same⟩ := m.behind operand
    have operator := Bool.eq_false_iff.2 closed
    obtain ⟨upper, top', upper', rfl, rfl, head, rfl, pending⟩ := m.waiting fresh here operator
    obtain ⟨left, left', r', reduced', m', brackets, present⟩ := m.reduceTop fresh operator same reduced
    have tighter := bindsTighter_ok_true.1 tighter
    have given := Bool.eq_false_iff.2 given
    obtain ⟨last, last', r, reduces, mirrors, brackets', present⟩ := ih m' present (by rwa [brackets]) ok
    rw [← head.rule] at operator tighter
    rw [← head.missingLeft] at given
    refine ⟨last, last', r, ?_, mirrors, brackets'.trans brackets, present⟩
    rw [reduceLeft_step pending operand' operator given tighter reduced', reduces]
  | case7 p none =>
    obtain ⟨right, operand⟩ := Option.isSome_iff_exists.1 present
    obtain ⟨tag, width, floor, -⟩ := fresh
    have pending := m.here.pending
    rw [floor] at pending
    cases here : p.pending with
    | nil => simp [here] at pending
    | cons top below => exact (none right top below operand here).elim
  | _ => cases ok

theorem reduceToPrior_cons {prior : String} (here : p.pending = top :: below) (operand : p.operand = some right)
    (operator : top.rule.isOpener = false) (tag : Tag) : p.reduceToPrior prior tag =
      if top.rule.symbol = prior then .ok p
      else
        match p.reduceTop top below right with
        | .error refusal => .error refusal
        | .ok q => q.reduceToPrior prior tag := by
  rw [reduceToPrior.eq_def]
  split
  · next found found' =>
    rw [here] at found'
    rw [operand] at found
    cases found
    cases found'
    rw [operator, if_neg Bool.false_ne_true]
    split
    · rfl
    · split
      · next failed => simp only [failed]
      · next reduced => simp only [reduced]
  · next none => exact absurd here (none right top below operand)

/-- The part that a chain continues is an operator of the line. -/
theorem Mirrors.reduceToPrior {prior : String} (fresh : base.Fresh) (m : Mirrors base base' above above' p p')
    (tag' : Tag) (ok : p.reduceToPrior prior tag = .ok q) : ∃ left left' q', p'.reduceToPrior prior tag' = .ok q' ∧
      Mirrors base base' left left' q q' ∧ opened left = opened above ∧ q.operand.isSome = true := by
  fun_induction Parser.reduceToPrior p prior tag generalizing above above' p' with
  | case2 p right top below here operand closed same =>
    cases ok
    obtain ⟨right', operand', -⟩ := m.behind operand
    have operator := Bool.eq_false_iff.2 closed
    obtain ⟨upper, top', upper', rfl, rfl, head, -, pending⟩ := m.waiting fresh here operator
    refine ⟨_, _, p', ?_, m, rfl, by rw [operand]; rfl⟩
    rw [← head.rule] at operator same
    rw [reduceToPrior_cons pending operand' operator, if_pos same]
  | case4 p right top below here operand closed differ q' reduced ih =>
    obtain ⟨right', operand', same⟩ := m.behind operand
    have operator := Bool.eq_false_iff.2 closed
    obtain ⟨upper, top', upper', rfl, rfl, head, rfl, pending⟩ := m.waiting fresh here operator
    obtain ⟨left, left', r', reduced', m', brackets, -⟩ := m.reduceTop fresh operator same reduced
    obtain ⟨last, last', r, reduces, mirrors, brackets', present⟩ := ih m' ok
    refine ⟨last, last', r, ?_, mirrors, brackets'.trans brackets, present⟩
    rw [← head.rule] at operator differ
    rw [reduceToPrior_cons pending operand' operator, if_neg differ, reduced']
    exact reduces
  | _ => cases ok

/-- Outside of all brackets, an operator gives way to every separator. -/
theorem Steady.outside (steady : Steady top below) (outside : opened (top :: below) = []) (least : incoming.left ≤ 1) :
    top.missingLeft = false ∧ top.rule.Tighter incoming := by
  have loose := steady.loose outside
  refine ⟨Bool.eq_false_iff.2 fun missing => ?_, .inl (by omega)⟩
  have paren := steady.missing missing
  cases below with
  | nil => cases paren
  | cons opener below =>
    have opens : opener.rule.isOpener = true := (Bool.and_eq_true_iff.1 paren).1
    exact List.filter_eq_nil_iff.1 outside opener.rule (by simp) opens

/-- What is left of the line once the innermost bracket is reduced: the bracket, or nothing. Outside of all brackets a
separator reduces the same. -/
theorem Mirrors.reduceToOpener (fresh : base.Fresh) (m : Mirrors base base' above above' p p')
    (ok : p.reduceToOpener = .ok q) : ∃ left left' q', Mirrors base base' left left' q q' ∧
      opened left = opened above ∧ (∀ o ∈ left.head?, o.rule.isOpener = true) ∧
      (p.operand.isSome = true → q.operand.isSome = true) ∧ p'.reduceToOpener = q'.reduceToOpener ∧
      (opened above = [] → ∀ (incoming : Rule) (tag' : Tag), incoming.left ≤ 1 →
        p'.reduceLeft incoming tag' = q'.reduceLeft incoming tag') := by
  fun_induction Parser.reduceToOpener p generalizing above above' p' with
  | case2 p top below here opens =>
    cases ok
    refine ⟨above, above', p', m, rfl, fun o first => ?_, id, rfl, fun _ _ _ _ => rfl⟩
    obtain ⟨rest, rfl⟩ := List.head?_eq_some_iff.1 first
    have found := m.here.pending
    rw [here] at found
    cases found
    exact opens
  | case5 p top below here closed right operand q' reduced ih =>
    obtain ⟨right', operand', same⟩ := m.behind operand
    have operator := Bool.eq_false_iff.2 closed
    obtain ⟨upper, top', upper', rfl, rfl, head, rfl, pending⟩ := m.waiting fresh here operator
    obtain ⟨left, left', r', reduced', m', brackets, present⟩ := m.reduceTop fresh operator same reduced
    obtain ⟨last, last', r, mirrors, brackets', first, some, reduces, separates⟩ := ih m' ok
    rw [← head.rule] at operator
    refine ⟨last, last', r, mirrors, brackets'.trans brackets, first, fun _ => some present, ?_, ?_⟩
    · rw [reduceToOpener_step pending operator operand' reduced', reduces]
    · intro outside incoming tag' least
      obtain ⟨given, tighter⟩ := m.steady.head.outside outside least
      rw [← head.missingLeft] at given
      rw [← head.rule] at tighter
      rw [reduceLeft_step pending operand' operator given tighter reduced', separates (by rwa [brackets]) _ _ least]
  | _ => cases ok

end Parser

end MixfixLambda
