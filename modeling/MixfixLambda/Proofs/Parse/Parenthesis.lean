import MixfixLambda.Proofs.Parse.Inside
import MixfixLambda.Proofs.Parse.Layout

/-!
# Texts in parentheses

The tokens of a text in parentheses are read alike wherever the parentheses stand, up to the one that closes them. Then
the operand is the tree that the text in parentheses is alone, and the rules are those in front of it.
-/
namespace MixfixLambda

namespace Token

/-- No parenthesis of the tokens is closed that has not been opened among them, where so many are open in front. -/
def Nested (depth : Nat) : List Token → Prop
  | [] => True
  | token :: rest =>
    if token.symbol = some "(" then Nested (depth + 1) rest
    else if token.symbol = some ")" then 0 < depth ∧ Nested (depth - 1) rest
    else Nested depth rest

instance Nested.decidable (depth : Nat) (tokens : List Token) : Decidable (Nested depth tokens) :=
  match tokens with
  | [] => inferInstanceAs (Decidable True)
  | token :: rest =>
    have := Nested.decidable (depth + 1) rest
    have := Nested.decidable (depth - 1) rest
    have := Nested.decidable depth rest
    inferInstanceAs (Decidable (if token.symbol = some "(" then Nested (depth + 1) rest
      else if token.symbol = some ")" then 0 < depth ∧ Nested (depth - 1) rest else Nested depth rest))

theorem Nested.of_append {depth : Nat} {tokens rest : List Token} (nested : Nested depth (tokens ++ rest)) :
    Nested depth tokens := by
  induction tokens generalizing depth with
  | nil => trivial
  | cons token tokens ih =>
    rw [List.cons_append, Nested] at nested
    rw [Nested]
    split at nested
    · next opens =>
      rw [if_pos opens]
      exact ih nested
    next other =>
    rw [if_neg other]
    split at nested
    · next closes =>
      rw [if_pos closes]
      exact ⟨nested.1, ih nested.2⟩
    · next plain =>
      rw [if_neg plain]
      exact ih nested

end Token

theorem Registry.eq_of_entries {r s : Registry} (entries : r.entries = s.entries) (scope : r.scope = s.scope) : r = s := by
  cases r
  cases s
  cases entries
  cases scope
  rfl

theorem Registry.symbol_lookup (r : Registry) (text : String) : (r.lookup text).symbol = text := by
  unfold lookup
  split
  · next found => exact (mem_of_find? found).2
  · rfl

namespace Parser

variable {base base' p p' q r : Parser} {o o' top opener : Pending} {above above' below floor floor' : List Pending}
  {brackets : List Rule} {t t' : Tree} {rule : Rule} {tag tag' : Tag} {span : Span} {token : Token}

/-! ### Closing a bracket -/

theorem Inside.opened (inside : Inside base base' brackets p p') :
    Parser.opened p.pending = brackets ++ Parser.opened base.pending := by
  obtain ⟨above, above', here, -, frames⟩ := inside.frames
  rw [here, ← frames.rules, Parser.opened, Parser.opened, Parser.opened, List.map_append, List.filter_append]

/-- Separators are dropped up to the bracket. -/
theorem Frames.eraseSeparators {operand operand' : Option Tree} (frames : Frames brackets above above')
    (bracketed : brackets ≠ []) (separators : ∀ rule ∈ brackets, rule.isSeparator = false)
    (same : operand'.map Tree.unlocated = operand.map Tree.unlocated) (floor floor' : List Pending) :
    ∃ left left' content content', Parser.eraseSeparators operand (above ++ floor) = (content, left ++ floor) ∧
      Parser.eraseSeparators operand' (above' ++ floor') = (content', left' ++ floor') ∧
      Frames brackets left left' ∧ content'.map Tree.unlocated = content.map Tree.unlocated := by
  induction above generalizing above' operand operand' with
  | nil =>
    obtain ⟨_, _, _, _, absent, -⟩ := frames.exists_cons bracketed
    cases absent
  | cons o above ih =>
    obtain ⟨_, o', _, upper', first, rfl, head⟩ := frames.exists_cons bracketed
    obtain ⟨rfl, rfl⟩ := List.cons.inj first
    cases operand with
    | some t =>
      obtain ⟨t', rfl, -⟩ := Option.map_eq_some_iff.1 same
      exact ⟨_, _, _, _, rfl, rfl, frames, same⟩
    | none =>
      rw [Option.map_none, Option.map_eq_none_iff] at same
      subst same
      rw [List.cons_append, List.cons_append, Parser.eraseSeparators, Parser.eraseSeparators, head.rule]
      split
      · next separates =>
        have operator : o.rule.isOpener = false := by
          refine Bool.eq_false_iff.2 fun opens => ?_
          obtain ⟨outer, rfl, -⟩ := frames.leave opens
          rw [separators _ (List.mem_cons_self ..)] at separates
          cases separates
        exact ih (frames.under operator) head.left
      · exact ⟨_, _, _, _, rfl, rfl, frames, rfl⟩

theorem Inside.dropSeparators (inside : Inside base base' brackets p p') (bracketed : brackets ≠ [])
    (separators : ∀ rule ∈ brackets, rule.isSeparator = false) :
    Inside base base' brackets p.dropSeparators p'.dropSeparators := by
  obtain ⟨above, above', here, there, frames⟩ := inside.frames
  obtain ⟨left, left', content, content', erased, erased', frames, same⟩ :=
    frames.eraseSeparators bracketed separators inside.operand base.pending base'.pending
  rw [Parser.dropSeparators, Parser.dropSeparators, here, there, erased, erased']
  exact inside.replace frames same

theorem Frames.isParen (frames : Frames brackets above above') (bracketed : brackets ≠ []) (floor floor' : List Pending) :
    ((above' ++ floor').head?).any Pending.isParen = ((above ++ floor).head?).any Pending.isParen := by
  obtain ⟨o, o', upper, upper', rfl, rfl, head⟩ := frames.exists_cons bracketed
  simp [Pending.isParen, head.rule]

/-- What sections leave out is supplied alike. -/
theorem Inside.completeSection (inside : Inside base base' brackets p p') (bracketed : brackets ≠ [])
    (ok : p.completeSection = .ok q) : Follows base base' brackets q p'.completeSection := by
  cases operand : p.operand with
  | some t =>
    obtain ⟨t', operand', -⟩ := inside.behind operand
    rw [completeSection_some operand] at ok
    cases ok
    exact ⟨p', completeSection_some operand', inside⟩
  | none =>
    obtain ⟨top, top', upper, upper', pending, pending', head, frames⟩ := inside.exists_cons bracketed
    rw [completeSection_none operand pending] at ok
    rw [completeSection_none (inside.empty operand) pending', head.rule, head.missingLeft]
    by_cases opens : top.rule.isOpener = true
    · rw [if_pos opens] at ok ⊢
      cases ok
      exact inside.pure
    · have operator := Bool.eq_false_iff.2 opens
      have under := frames.under operator
      have present : top'.left.isSome = top.left.isSome := by rw [← Option.isSome_map, head.left, Option.isSome_map]
      rw [if_neg opens] at ok
      rw [if_neg opens, under.isParen bracketed base.pending base'.pending, present]
      split at ok
      · next bare =>
        rw [if_pos bare]
        cases ok
        refine (inside.replace under ?_).pure
        simp only [Option.map_some, Tree.unlocated, Tag.unlocated_congr head.text]
      · next named =>
        rw [if_neg named]
        split at ok
        · next sections =>
          rw [if_pos sections]
          cases ok
          obtain ⟨marked, marked'⟩ := under.marks bracketed base.pending base'.pending
          have gap : (some (Tree.placeholder (Span.point top'.tag.span.stop))).map Tree.unlocated =
              (some (Tree.placeholder (Span.point top.tag.span.stop))).map Tree.unlocated := rfl
          rw [marked, marked']
          exact (inside.replace (under.mark.lay bracketed head operator) gap).pure
        · cases ok

/-- A closing bracket closes the innermost one alike. -/
theorem Inside.closeBracket (inside : Inside base base' brackets p p') (bracketed : brackets ≠ [])
    (scopes : Scoped 1 p) (named : tag'.text = tag.text) (ok : p.closeBracket rule tag = .ok q) :
    ∃ bracket outer, brackets = bracket :: outer ∧ bracket.partner = some rule.symbol ∧
      Follows base base' outer q (p'.closeBracket rule tag') := by
  have separators : ∀ rule ∈ brackets, rule.isSeparator = false := fun rule member =>
    scopes.separators rule (by rw [inside.opened]; exact List.mem_append_left _ member)
  obtain ⟨completed, completes, ok⟩ := bind_ok ok
  obtain ⟨reduced, reduces, ok⟩ := bind_ok ok
  obtain ⟨⟨content, opener, free⟩, popped, ok⟩ := bind_ok ok
  have stack := (scopes.stack.edits (dropSeparators_edits p)).edits (completeSection_edits completes)
  obtain ⟨completed', completes', inside⟩ := (inside.dropSeparators bracketed separators).completeSection bracketed completes
  obtain ⟨reduced', reduces', inside⟩ := inside.reduceToOpener bracketed stack reduces
  obtain ⟨below, here, opens, rfl, rfl⟩ := popBracket_ok popped
  obtain ⟨o, opener', upper, upper', pending, pending', head, frames⟩ := inside.exists_cons bracketed
  obtain ⟨rfl, rfl⟩ := List.cons.inj (here.symm.trans pending)
  obtain ⟨outer, rfl, around⟩ := frames.leave opens
  have popped' : reduced'.popBracket tag' = .ok (reduced'.operand, opener',
      { reduced' with operand := none, pending := upper' ++ base'.pending }) := by
    simp [popBracket, pending', head.rule, opens]
  dsimp only at ok
  split at ok
  · next partner =>
    obtain ⟨t, made, rfl⟩ := putBracket_ok ok
    obtain ⟨t', made', agrees⟩ := Tree.ofBracket_congr head.text named inside.operand made
    have closed : p'.closeBracket rule tag' = .ok { { reduced' with
        operand := none, pending := upper' ++ base'.pending }.leaveScope with operand := some t' } := by
      simp only [Parser.closeBracket, completes', reduces', popped', head.rule, head.sectioned, partner, if_true, bind,
        Except.bind, putBracket, made']
    refine ⟨opener.rule, outer, rfl, partner, _, closed, ⟨upper, upper', rfl, rfl, around⟩, congrArg some agrees, ?_,
      ?_, ?_, inside.started⟩
    · simp only [leaveScope, inside.registry]
    · simp only [leaveScope, inside.here]
      rfl
    · simp only [leaveScope, inside.there]
      rfl
  · split at ok <;> cases ok

/-! ### Operands and operators -/

theorem Inside.push (inside : Inside base base' brackets p p') (bracketed : brackets ≠ [])
    (operator : rule.isOpener = false) (named : tag'.text = tag.text) :
    Inside base base' brackets (p.push rule tag) (p'.push rule tag') := by
  obtain ⟨above, above', here, there, frames⟩ := inside.frames
  have head : Pending.Alike { Pending.leading rule tag with left := p.operand }
      { Pending.leading rule tag' with left := p'.operand } := ⟨rfl, named, inside.operand, rfl, rfl⟩
  refine ⟨⟨_, _, ?_, ?_, frames.lay bracketed head operator⟩, rfl, inside.registry, inside.here, inside.there,
    inside.started⟩
  · simp only [Parser.push, here, List.cons_append]
  · simp only [Parser.push, there, List.cons_append]

theorem Inside.openBracket (inside : Inside base base' brackets p p') (opens : rule.isOpener = true)
    (written : rule.bracketKind ≠ some .block) (named : tag'.text = tag.text) :
    Inside base base' (rule :: brackets) (p.openBracket rule tag) (p'.openBracket rule tag') := by
  obtain ⟨above, above', here, there, frames⟩ := inside.frames
  have head : Pending.Alike { Pending.leading rule tag with left := p.operand }
      { Pending.leading rule tag' with left := p'.operand } := ⟨rfl, named, inside.operand, rfl, rfl⟩
  refine ⟨⟨_, _, ?_, ?_, frames.enter head opens⟩, rfl, ?_, ?_, ?_, inside.started⟩
  · simp only [Parser.openBracket, Parser.push, here]
    rfl
  · simp only [Parser.openBracket, Parser.push, there]
    rfl
  · simp only [Parser.openBracket, Parser.push, inside.registry]
  · simp only [Parser.openBracket, Parser.push, if_neg written, inside.here]
    rfl
  · simp only [Parser.openBracket, Parser.push, if_neg written, inside.there]
    rfl

theorem Inside.separateOperands (inside : Inside base base' brackets p p') (bracketed : brackets ≠ [])
    (stack : Stacked p.pending) {place : Span} (ok : p.separateOperands place = .ok q) (place' : Span) :
    Follows base base' brackets q (p'.separateOperands place') := by
  unfold Parser.separateOperands at ok ⊢
  rw [inside.isSome]
  split at ok
  · next behind =>
    rw [if_pos behind]
    obtain ⟨r, reduced, ok⟩ := bind_ok ok
    cases ok
    refine (inside.reduceLeft bracketed stack behind reduced _).1.bind fun r' inside => ?_
    have named : (p'.tag " " (Span.point place'.start)).text = (p.tag " " (Span.point place.start)).text := rfl
    exact (inside.push bracketed (rfl : Rule.space.isOpener = false) named).pure
  · next absent =>
    rw [if_neg absent]
    cases ok
    exact inside.pure

theorem Inside.shiftOperand (inside : Inside base base' brackets p p') (bracketed : brackets ≠ [])
    (stack : Stacked p.pending) (agrees : t'.unlocated = t.unlocated) (ok : p.shiftOperand t = .ok q) :
    Follows base base' brackets q (p'.shiftOperand t') := by
  obtain ⟨r, separated, ok⟩ := bind_ok ok
  cases ok
  exact (inside.separateOperands bracketed stack separated t'.span).bind fun r' inside =>
    (inside.put agrees).pure

/-- Behind the reductions an operator waits, or takes its operand at once. -/
theorem Inside.placed (inside : Inside base base' brackets p p') (bracketed : brackets ≠ [])
    (operator : rule.isOpener = false) (named : tag'.text = tag.text)
    (ok : (if rule.fixity = .postfixOp then
        match p.operand with
        | some operand => return { p with operand := some (.postfixOp tag operand) }
        | none => p.refuseOperand tag
      else return p.push rule tag) = Except.ok q) :
    Follows base base' brackets q (if rule.fixity = .postfixOp then
        match p'.operand with
        | some operand => return { p' with operand := some (.postfixOp tag' operand) }
        | none => p'.refuseOperand tag'
      else return p'.push rule tag') := by
  split at ok
  · next follows =>
    rw [if_pos follows]
    split at ok
    · next t operand =>
      obtain ⟨t', operand', agrees⟩ := inside.behind operand
      cases ok
      rw [operand']
      refine (inside.put ?_).pure
      simp only [Tree.unlocated, Tag.unlocated_congr named, agrees]
    · cases ok
  · next between =>
    rw [if_neg between]
    cases ok
    exact (inside.push bracketed operator named).pure

theorem Inside.shiftInner (inside : Inside base base' brackets p p') (bracketed : brackets ≠ [])
    (stack : Stacked p.pending) (operator : rule.isOpener = false) (named : tag'.text = tag.text)
    (ok : p.shiftInner rule tag = .ok q) : Follows base base' brackets q (p'.shiftInner rule tag') := by
  have absent : p'.operand.isNone = p.operand.isNone := by
    rw [← Option.not_isSome, ← Option.not_isSome, inside.isSome]
  unfold Parser.shiftInner at ok ⊢
  rw [absent]
  split at ok
  · next empty =>
    rw [if_pos empty]
    obtain ⟨above, above', here, there, frames⟩ := inside.frames
    have paren : (p'.pending.head?).any Pending.isParen = (p.pending.head?).any Pending.isParen := by
      rw [here, there, frames.isParen bracketed base.pending base'.pending]
    rw [paren]
    split at ok
    · next sections =>
      rw [if_pos sections]
      cases ok
      have head : Pending.Alike { Pending.leading rule tag with missingLeft := true }
          { Pending.leading rule tag' with missingLeft := true } := ⟨rfl, named, rfl, rfl, rfl⟩
      rw [here, there]
      exact (inside.replace (frames.lay bracketed head operator) inside.operand).pure
    · cases ok
  · next present =>
    rw [if_neg present]
    have behind : p.operand.isSome = true := by simpa [Option.isSome_iff_ne_none] using present
    dsimp only at ok ⊢
    split at ok
    · obtain ⟨r, reduced, ok⟩ := bind_ok ok
      exact (inside.reduceToPrior bracketed stack behind reduced tag').1.bind fun r' inside =>
        inside.placed bracketed operator named ok
    · obtain ⟨r, reduced, ok⟩ := bind_ok ok
      exact (inside.reduceLeft bracketed stack behind reduced tag').1.bind fun r' inside =>
        inside.placed bracketed operator named ok

/-! ### Words -/

/-- In parentheses the words of a declaration are told alike. -/
theorem declaring_alike (alike : List.Forall₂ Pending.Alike above above') (paren : ∃ o ∈ above, o.rule = openParen)
    (floor floor' : List Pending) : declaring (above' ++ floor') = declaring (above ++ floor) := by
  induction alike with
  | nil => simp at paren
  | @cons o o' above above' head _ ih =>
    rw [List.cons_append, List.cons_append, declaring_cons, declaring_cons, head.rule]
    split
    · next apply =>
      obtain ⟨opener, member, rule⟩ := paren
      rcases List.mem_cons.1 member with rfl | member
      · rw [rule] at apply
        cases apply
      · exact ih ⟨opener, member, rule⟩
    · rfl

theorem Inside.isDeclared (inside : Inside base base' brackets p p') (paren : openParen ∈ brackets) (rule : Rule) :
    p'.isDeclared rule = p.isDeclared rule := by
  obtain ⟨above, above', here, there, frames⟩ := inside.frames
  rw [← frames.rules] at paren
  obtain ⟨o, member, same⟩ := List.mem_map.1 (List.mem_filter.1 paren).1
  rw [isDeclared_eq, isDeclared_eq, here, there, declaring_alike frames.alike ⟨o, member, same⟩ base.pending]

/-- What a rule does to the brackets. -/
inductive Turns (rule : Rule) (brackets : List Rule) (q : Parser) : List Rule → Prop
  | stays (other : ¬rule.IsBracket) : Turns rule brackets q brackets
  | opens : Turns rule brackets q (rule :: brackets)
  | closes {bracket : Rule} {outer : List Rule} (split : brackets = bracket :: outer) (closing : rule.fixity = .closing)
      (partner : bracket.partner = some rule.symbol) (made : q.operand.isSome = true) : Turns rule brackets q outer

theorem Inside.shiftOperator (inside : Inside base base' brackets p p') (bracketed : brackets ≠ [])
    (scopes : Scoped 1 p) (written : rule.Written) (named : tag'.text = tag.text)
    (ok : p.shiftOperator rule tag = .ok q) :
    ∃ brackets', Turns rule brackets q brackets' ∧ Follows base base' brackets' q (p'.shiftOperator rule tag') := by
  have operator {fixity : Fixity} (same : rule.fixity = fixity) (other : fixity ≠ .opening) : rule.isOpener = false :=
    not_opener (by rwa [same])
  unfold Parser.shiftOperator at ok ⊢
  split at ok
  · next opening =>
    obtain ⟨r, separated, ok⟩ := bind_ok ok
    cases ok
    have opens : rule.isOpener = true := by simp [Rule.isOpener, opening]
    have block : rule.bracketKind ≠ some .block := (written opening).1 ∘ Rule.bracketKind_eq.1
    refine ⟨rule :: brackets, .opens, ?_⟩
    exact (inside.separateOperands bracketed scopes.stack separated tag'.span).bind fun r' inside =>
      (inside.openBracket opens block named).pure
  · next closing =>
    obtain ⟨bracket, outer, split, partner, follows⟩ := inside.closeBracket bracketed scopes named ok
    refine ⟨outer, .closes split closing partner ?_, follows⟩
    obtain ⟨edits, here, opens, partner, tree⟩ := closeBracket_ok ok
    rfl
  · next leads =>
    obtain ⟨r, separated, ok⟩ := bind_ok ok
    cases ok
    refine ⟨brackets, .stays (by simp [Rule.IsBracket, leads]), ?_⟩
    exact (inside.separateOperands bracketed scopes.stack separated tag'.span).bind fun r' inside =>
      (inside.push bracketed (operator leads Fixity.noConfusion) named).pure
  · next between =>
    exact ⟨brackets, .stays (by simp [Rule.IsBracket, between]),
      inside.shiftInner bracketed scopes.stack (operator between Fixity.noConfusion) named ok⟩
  · next follows =>
    exact ⟨brackets, .stays (by simp [Rule.IsBracket, follows]),
      inside.shiftInner bracketed scopes.stack (operator follows Fixity.noConfusion) named ok⟩

theorem Inside.shiftSymbol {text : String} (inside : Inside base base' brackets p p') (paren : openParen ∈ brackets)
    (g : Guarded p) (ok : p.shiftSymbol text span = .ok q) (span' : Span) :
    ∃ brackets', Turns (p.registry.lookup text) brackets q brackets' ∧
      Follows base base' brackets' q (p'.shiftSymbol text span') := by
  have bracketed := List.ne_nil_of_mem paren
  unfold Parser.shiftSymbol at ok ⊢
  dsimp only at ok ⊢
  rw [inside.registry, inside.isDeclared paren]
  split at ok
  · next plain =>
    rw [if_pos plain]
    have agrees : (Tree.name (p'.tag text span')).unlocated = (Tree.name (p.tag text span)).unlocated := rfl
    refine ⟨brackets, .stays ?_, inside.shiftOperand bracketed g.scopes.stack agrees ok⟩
    cases found : p.registry.find? text with
    | none => simp [Registry.lookup, found, Rule.operand, Rule.IsBracket]
    | some e =>
      have other := g.plain (by simpa using plain) e found
      rwa [Registry.lookup, found]
  · next plain =>
    rw [if_neg plain]
    have written : (p.registry.lookup text).Written := by
      cases found : p.registry.find? text with
      | none => simp [Registry.lookup, found, Rule.operand, Rule.Written]
      | some e =>
        rw [Registry.lookup, found]
        exact g.scopes.written e (Registry.mem_of_find? found).1
    have named : (p'.tag text span').text = (p.tag text span).text := rfl
    exact inside.shiftOperator bracketed g.scopes written named ok

/-- What a token does to the brackets that a parenthesis is among. -/
def Changes (p : Parser) (token : Token) (brackets : List Rule) (q : Parser) (brackets' : List Rule) : Prop :=
  match token.symbol with
  | some text => Turns (p.registry.lookup text) brackets q brackets'
  | none => brackets' = brackets

/-- A token in parentheses is taken alike. -/
theorem Inside.shift (inside : Inside base base' brackets p p') (paren : openParen ∈ brackets) (g : Guarded p)
    (more : token ≠ .eof) (ok : p.shift token span = .ok q) (span' : Span) :
    ∃ brackets', Changes p token brackets q brackets' ∧ Follows base base' brackets' q (p'.shift token span') := by
  have bracketed := List.ne_nil_of_mem paren
  have leaf {t t' : Tree} (agrees : t'.unlocated = t.unlocated) (ok : p.shiftOperand t = .ok q) :=
    inside.shiftOperand bracketed g.scopes.stack agrees ok
  cases token with
  | eof => exact (more rfl).elim
  | newline width =>
    -- The innermost bracket is written, so that the line goes on.
    obtain ⟨bracket, outer, rfl⟩ := List.exists_cons_of_ne_nil bracketed
    have continues {p : Parser} {layout : List Layout} (here : p.layout = .explicit :: layout) (span : Span) :
        p.shiftNewline width span = .ok p := by
      rw [shiftNewline, here]
    refine ⟨_, rfl, p', continues inside.there span', ?_⟩
    cases (continues inside.here span).symm.trans ok
    exact inside
  | int value => exact ⟨brackets, rfl, leaf (by simp only [Tree.unlocated]) ok⟩
  | str bytes => exact ⟨brackets, rfl, leaf (by simp only [Tree.unlocated]) ok⟩
  | char value => exact ⟨brackets, rfl, leaf (by simp only [Tree.unlocated]) ok⟩
  | name text | operator text => exact inside.shiftSymbol paren g ok span'

/-! ### Runs -/

/-- At the bottom of the brackets is a parenthesis, and at least so many are open in it. -/
def Deep (depth : Nat) (brackets : List Rule) : Prop :=
  ∃ inner, brackets = inner ++ [openParen] ∧ depth ≤ inner.count openParen

variable {depth : Nat} {brackets' : List Rule} {tokens : List Token} {xs ys : List Lexeme}

theorem Deep.paren (deep : Deep depth brackets) : openParen ∈ brackets := by
  obtain ⟨inner, rfl, -⟩ := deep
  exact List.mem_append_right _ (List.mem_cons_self ..)

/-- The parenthesis at the bottom stays, as no other token than its partner closes it. -/
theorem Turns.deep {text : String} (turns : Turns rule brackets q brackets') (deep : Deep depth brackets)
    (named : rule.symbol = text) (opening : text = "(" → rule = openParen) (word : token.symbol = some text)
    (nested : Token.Nested depth (token :: tokens)) : ∃ depth', Deep depth' brackets' ∧ Token.Nested depth' tokens := by
  obtain ⟨inner, rfl, most⟩ := deep
  simp only [Token.Nested, word, Option.some.injEq] at nested
  cases turns with
  | stays other =>
    have differs : text ≠ "(" := fun same => other (.inl (by rw [opening same]; rfl))
    rw [if_neg differs] at nested
    split at nested
    · exact ⟨depth - 1, ⟨inner, rfl, by omega⟩, nested.2⟩
    · exact ⟨depth, ⟨inner, rfl, most⟩, nested⟩
  | opens =>
    have more : inner.count openParen ≤ (rule :: inner).count openParen := List.count_le_count_cons
    split at nested
    · next same =>
      refine ⟨depth + 1, ⟨rule :: inner, rfl, ?_⟩, nested⟩
      rw [opening same, List.count_cons_self]
      omega
    · split at nested
      · exact ⟨depth - 1, ⟨rule :: inner, rfl, by omega⟩, nested.2⟩
      · exact ⟨depth, ⟨rule :: inner, rfl, by omega⟩, nested⟩
  | @closes bracket outer split closing partner made =>
    have differs : text ≠ "(" := by
      intro same
      rw [opening same] at closing
      cases closing
    rw [if_neg differs] at nested
    cases inner with
    | nil =>
      -- The bracket at the bottom is closed by its partner only, which would be one too many.
      obtain ⟨rfl, rfl⟩ := List.cons.inj split
      have closes : text = ")" := named.symm.trans (Option.some.inj partner).symm
      rw [if_pos closes, List.count_nil] at *
      omega
    | cons first inner =>
      obtain ⟨rfl, rfl⟩ := List.cons.inj split
      split at nested
      · next same =>
        have fewer : (first :: inner).count openParen ≤ inner.count openParen + 1 := by
          rw [List.count_cons]
          split <;> omega
        exact ⟨depth - 1, ⟨inner, rfl, by omega⟩, nested.2⟩
      · next other =>
        have plain : first ≠ openParen := by
          rintro rfl
          exact other (named.symm.trans (Option.some.inj partner).symm)
        rw [List.count_cons_of_ne plain] at most
        exact ⟨depth, ⟨inner, rfl, most⟩, nested⟩

/-- What is known of a state in brackets of a source: nothing has been declared outside of them. -/
structure Indoors (p : Parser) : Prop where
  guarded : Guarded p
  history : History .default (fun _ _ => False) p

theorem Indoors.paren (indoors : Indoors p) : p.registry.lookup "(" = openParen := by
  obtain ⟨news, entries, -⟩ := indoors.history.since
  have listed : ⟨0, openParen⟩ ∈ Registry.default.entries := by decide +kernel
  have member : ⟨0, openParen⟩ ∈ p.registry.entries := entries ▸ List.mem_append_right _ listed
  have found : p.registry.find? "(" = some ⟨0, openParen⟩ := indoors.guarded.paired.found _ member (.inl rfl)
  rw [Registry.lookup, found]

/-- Outside of all brackets the rules are those of the default grammar again. -/
theorem Indoors.registry (indoors : Indoors p) (outside : opened p.pending = [fileRule]) :
    p.registry = Registry.default := by
  obtain ⟨news, entries, -, bounds, declared⟩ := indoors.history.since
  have base : Registry.default.scope = 0 := by decide +kernel
  have scope : p.registry.scope = 0 := by
    have step := indoors.history.scope
    rw [outside, base] at step
    simpa using step
  have none : news = [] := List.eq_nil_iff_forall_not_mem.2 fun e member => by
    have := bounds e member
    obtain ⟨d, -, ⟨tag, kind, operand, never, -⟩, -⟩ := declared e member (by omega)
    exact never
  rw [none, List.nil_append] at entries
  exact Registry.eq_of_entries entries (scope.trans base.symm)

theorem Indoors.shifts (indoors : Indoors p) (worded : token.symbol ≠ some "") (inside : opened p.pending ≠ [fileRule])
    (shifts : Shifts p span token q) : Indoors q :=
  ⟨indoors.guarded.shifts worded shifts,
    indoors.history.shifts worded (fun _ _ _ _ _ outside => inside outside) shifts⟩

theorem Fresh.opened (fresh : base.Fresh) : Parser.opened base.pending = [fileRule] := by
  obtain ⟨tag, width, here, -⟩ := fresh
  rw [here]
  rfl

theorem Inside.opened_ne (inside : Inside base base' brackets p p') (fresh : base.Fresh) (bracketed : brackets ≠ []) :
    Parser.opened p.pending ≠ [fileRule] := by
  rw [inside.opened, fresh.opened]
  intro same
  have length := congrArg List.length same
  have some := List.length_pos_iff.2 bracketed
  simp only [List.length_append, List.length_singleton] at length
  omega

/-- Tokens in parentheses are taken alike. -/
theorem Inside.taking (inside : Inside base base' brackets p p') (fresh : base.Fresh) (indoors : Indoors p)
    (deep : Deep depth brackets) (same : ys.map Lexeme.token = xs.map Lexeme.token)
    (flat : ∀ x ∈ xs, x.token ≠ .eof ∧ x.token.symbol ≠ some "") (nested : Token.Nested depth (xs.map Lexeme.token))
    (ok : p.taking xs = .ok q) :
    ∃ brackets' q' depth', p'.taking ys = .ok q' ∧ Inside base base' brackets' q q' ∧ Deep depth' brackets' ∧
      Indoors q := by
  induction xs generalizing brackets p p' depth ys with
  | nil =>
    cases ok
    rw [List.map_nil, List.map_eq_nil_iff] at same
    subst same
    exact ⟨brackets, p', depth, rfl, inside, deep, indoors⟩
  | cons x xs ih =>
    obtain ⟨y, ys, rfl, first, behind⟩ := List.map_eq_cons_iff.1 same
    rw [List.forall_mem_cons] at flat
    obtain ⟨⟨more, worded⟩, flat⟩ := flat
    obtain ⟨r, shifted, ok⟩ := bind_ok ok
    obtain ⟨between, changes, r', shifted', inside'⟩ := inside.shift deep.paren indoors.guarded more shifted y.span
    have indoors' := indoors.shifts worded (inside.opened_ne fresh (List.ne_nil_of_mem deep.paren)) (shift_ok shifted)
    obtain ⟨depth', deep', nested'⟩ : ∃ depth', Deep depth' between ∧ Token.Nested depth' (xs.map Lexeme.token) := by
      unfold Changes at changes
      cases word : x.token.symbol with
      | none =>
        rw [word] at changes
        simp only [List.map_cons, Token.Nested, word, reduceCtorEq, if_false] at nested
        exact ⟨depth, changes ▸ deep, nested⟩
      | some text =>
        rw [word] at changes
        exact changes.deep deep (Registry.symbol_lookup p.registry text) (fun same => same ▸ indoors.paren) word nested
    obtain ⟨brackets', q', depth'', taken, rest⟩ := ih inside' indoors' deep' behind flat nested' ok
    refine ⟨brackets', q', depth'', ?_, rest⟩
    rw [Parser.taking, List.foldlM_cons, first, shifted']
    exact taken

/-- The last bracket is closed behind its operand. -/
theorem Turns.made (turns : Turns rule brackets q []) (bracketed : brackets ≠ []) : q.operand.isSome = true := by
  cases turns with
  | stays => exact absurd rfl bracketed
  | closes _ _ _ made => exact made

/-- A source has no open bracket at its end. -/
theorem Inside.finishes {result : Tree × Parser} (inside : Inside base base' brackets p p') (fresh : base.Fresh)
    (g : Guarded p) (ok : p.finish span = .ok result) : brackets = [] := by
  obtain @⟨r, s, opener, below, closing, t, dedents, edits, here, opens, file, tree⟩ := finish_ok ok
  cases brackets with
  | nil => rfl
  | cons bracket outer =>
    have explicit := inside.here
    cases dedents with
    | step block =>
      rw [block] at explicit
      cases explicit
    | stop =>
      obtain ⟨last, rfl⟩ := (g.edits edits).scopes.file here opens file
      have same := g.scopes.brackets opened_ofBrackets edits
      rw [here, opened_opener opens, inside.opened, fresh.opened] at same
      have length := congrArg List.length same
      simp at length

/-! ### A text in parentheses -/

theorem fresh_begun (origin : Origin) : (begun origin).Fresh :=
  ⟨_, 0, rfl, rfl⟩

theorem registry_begun (origin : Origin) : (begun origin).registry = .default := by
  simp only [begun, start]

theorem operand_begun (origin : Origin) : (begun origin).operand = none := by
  simp only [begun, start]

theorem shift_openParen (u : p.Undeclared) (empty : p.operand = none) (span : Span) :
    p.shift (.operator "(") span = .ok (p.openBracket openParen (p.tag "(" span)) := by
  refine (u.shiftOperator parens_listed.1 span).trans ?_
  have opening : openParen.fixity = .opening := rfl
  simp only [Parser.shiftOperator, opening, separateOperands_none empty]
  rfl

theorem history_start {registry : Registry} {K : Tag → DeclarationKind → Prop} (built : registry.Built)
    (written : ∀ e ∈ registry.entries, e.rule.Written) (origin : Origin) : History registry K (start registry origin) :=
  ⟨built.older, scoped_start written origin, Registry.since_self _, .cons (fun leads => by cases leads) .nil⟩

theorem indoors_begun (origin : Origin) : Indoors (begun origin) := by
  have shifts : Shifts (start .default origin) Span.origin (.newline 0) (begun origin) := shift_ok (shift_first ..)
  have history : History .default (fun _ _ => False) (start .default origin) :=
    history_start Registry.Built.default default_written origin
  refine ⟨(guarded_start origin).shifts (by decide) shifts, history.shifts (by decide) ?_ shifts⟩
  exact fun text e kind acts => absurd acts.word (by simp [Token.symbol])

/-- A parenthesis is opened alike wherever an operand is wanted. -/
theorem Undeclared.opens (u : base'.Undeclared) (origin : Origin) (empty : base'.operand = none)
    (rules : base'.registry = .default) (span span' : Span) :
    ∃ p p', (begun origin).shift (.operator "(") span = .ok p ∧ base'.shift (.operator "(") span' = .ok p' ∧
      Inside (begun origin) base' [openParen] p p' ∧ Indoors p := by
  have outside : Inside (begun origin) base' [] (begun origin) base' :=
    ⟨⟨[], [], rfl, rfl, .nil, .nil, rfl⟩, by rw [empty, operand_begun],
      rules.trans (registry_begun origin).symm, rfl, rfl, rfl⟩
  have named : (base'.tag "(" span').text = ((begun origin).tag "(" span).text := by simp only [Parser.tag]
  have shifted := shift_openParen (begun_undeclared origin) (operand_begun origin) span
  have keyword : ∀ text e kind, Acts (begun origin) (.operator "(") text e → e.rule.reduction ≠ .declare kind := by
    intro text e kind acts
    cases acts.word
    have same := (indoors_begun origin).paren
    rw [Registry.lookup, acts.found] at same
    rw [show e.rule = openParen from same]
    exact Reduction.noConfusion
  refine ⟨_, _, shifted, shift_openParen u empty span', outside.openBracket rfl (by decide) named, ?_⟩
  refine ⟨(indoors_begun origin).guarded.shifts (by decide) (shift_ok shifted), ?_⟩
  exact (indoors_begun origin).history.shifts (by decide)
    (fun text e kind acts declares _ => keyword text e kind acts declares) (shift_ok shifted)

/-- A parenthesis and tokens that do not close it are taken alike. -/
theorem Undeclared.taking_open {origin : Origin} (u : base'.Undeclared) (empty : base'.operand = none)
    (rules : base'.registry = .default) (own : xs.map Lexeme.token = .operator "(" :: tokens)
    (same : ys.map Lexeme.token = xs.map Lexeme.token) (flat : ∀ token ∈ tokens, token ≠ .eof ∧ token.symbol ≠ some "")
    (nested : Token.Nested 0 tokens) (taken : (begun origin).taking xs = .ok q) :
    ∃ brackets q' depth, base'.taking ys = .ok q' ∧ Inside (begun origin) base' brackets q q' ∧ Deep depth brackets ∧
      Indoors q := by
  rw [own] at same
  obtain ⟨⟨_, span⟩, xs, rfl, rfl, content⟩ := List.map_eq_cons_iff.1 own
  obtain ⟨⟨_, span'⟩, ys, rfl, rfl, content'⟩ := List.map_eq_cons_iff.1 same
  obtain ⟨p, p', shifted, shifted', inside, indoors⟩ := u.opens origin empty rules span span'
  obtain ⟨p₁, opened, taken⟩ := bind_ok taken
  cases shifted.symm.trans opened
  subst content
  obtain ⟨brackets, q', depth, taken', rest⟩ := inside.taking (fresh_begun origin) indoors
    ⟨[], rfl, Nat.zero_le _⟩ content' (fun x member => flat _ (List.mem_map_of_mem member)) nested taken
  refine ⟨brackets, q', depth, ?_, rest⟩
  rw [Parser.taking, List.foldlM_cons, shifted']
  exact taken'

/-- A source is refused that leaves a parenthesis open. -/
theorem finish_open {origin : Origin} (own : xs.map Lexeme.token = .operator "(" :: tokens)
    (flat : ∀ token ∈ tokens, token ≠ .eof ∧ token.symbol ≠ some "") (nested : Token.Nested 0 tokens)
    (taken : (begun origin).taking xs = .ok q) (stop : Span) (result : Tree × Parser) :
    q.finish stop ≠ .ok result := by
  intro finished
  obtain ⟨brackets, q', depth, -, inside, deep, indoors⟩ :=
    (begun_undeclared origin).taking_open (operand_begun origin) (registry_begun origin) own rfl flat nested taken
  have none := inside.finishes (fresh_begun origin) indoors.guarded finished
  exact List.ne_nil_of_mem deep.paren none

/-- The operand has been read that says the same as the tree, and nothing else has changed. -/
structure Adds (p : Parser) (t : Tree) (q : Parser) : Prop where
  pending : q.pending = p.pending
  operand : ∃ t', q.operand = some t' ∧ t'.unlocated = t.unlocated
  registry : q.registry = p.registry
  layout : q.layout = p.layout
  started : q.started = p.started

/-- The end of a source whose tokens reduce to one operand: commas are refused, and anything else is its tree. -/
theorem Fresh.finish (fresh : base.Fresh) (layout : p.layout = base.layout) (present : p.operand.isSome = true)
    (reduced : p.reduceToOpener = .ok q) (pending : q.pending = base.pending) (operand : q.operand = some t)
    (stop : Span) : (∀ t' r, p.finish stop = .ok (t', r) → t' = t ∧ t.isComma = false) ∧
      (t.isComma = false → ∃ r, p.finish stop = .ok (t, r)) := by
  obtain ⟨tag, width, here, margin⟩ := fresh
  have blocks : closeBlocks (fun _ => true) stop p p.layout = .ok p := by
    rw [layout, margin]
    rfl
  have popped : q.popBracket (q.tag "end of file" stop) =
      .ok (some t, .leading fileRule tag, { q with operand := none, pending := [] }) := by
    simp [popBracket, pending, here, operand, Pending.leading, fileRule, Rule.opening, Rule.isOpener]
  have file : fileRule.bracketKind = some .file := rfl
  simp only [Parser.finish, blocks, dropSeparators_some present, reduced, popped, bind, Except.bind, Pending.leading,
    file, if_true]
  constructor
  · intro t' r ok
    split at ok
    · next made =>
      cases ok
      obtain ⟨same, plain⟩ := ofBracket_file made
      exact ⟨same.symm, same ▸ plain⟩
    · cases ok
  · intro plain
    have made (closing : Tag) : Tree.ofBracket .file tag closing (some t) false = .ok t := by
      cases t <;> first
        | rfl
        | cases plain
    rw [made]
    exact ⟨_, rfl⟩

/-- A text in parentheses is read as the same tree wherever an operand is wanted. -/
theorem Undeclared.taking_parenthesis {origin : Origin} {stop : Span} (u : base'.Undeclared)
    (empty : base'.operand = none) (rules : base'.registry = .default)
    (own : xs.map Lexeme.token = .operator "(" :: tokens ++ [.operator ")"])
    (same : ys.map Lexeme.token = xs.map Lexeme.token) (flat : ∀ token ∈ tokens, token ≠ .eof ∧ token.symbol ≠ some "")
    (nested : Token.Nested 0 tokens) (taken : (begun origin).taking xs = .ok q) (finished : q.finish stop = .ok (t, r)) :
    ∃ q', base'.taking ys = .ok q' ∧ Adds base' t q' ∧ t.isComma = false := by
  rw [own] at same
  obtain ⟨xs, last, rfl, front, last_⟩ := List.map_eq_append_iff.1 own
  obtain ⟨ys, last', rfl, front', last'_⟩ := List.map_eq_append_iff.1 same
  obtain ⟨⟨_, span⟩, rfl, rfl⟩ := List.map_eq_singleton_iff.1 last_
  obtain ⟨⟨_, span'⟩, rfl, rfl⟩ := List.map_eq_singleton_iff.1 last'_
  obtain ⟨p, taken, closing⟩ : ∃ p, (begun origin).taking xs = .ok p ∧ p.shift (.operator ")") span = .ok q := by
    rw [Parser.taking, List.foldlM_append] at taken
    obtain ⟨p, taken, closing⟩ := bind_ok taken
    obtain ⟨q', shifted, ok⟩ := bind_ok closing
    cases ok
    exact ⟨p, taken, shifted⟩
  obtain ⟨brackets, p', depth, taken', inside, deep, indoors⟩ :=
    u.taking_open empty rules front (front'.trans front.symm) flat nested taken
  obtain ⟨around, changes, q', closing', inside'⟩ :=
    inside.shift deep.paren indoors.guarded Token.noConfusion closing span'
  have shifts := shift_ok closing
  have indoors' := indoors.shifts (by decide)
    (inside.opened_ne (fresh_begun origin) (List.ne_nil_of_mem deep.paren)) shifts
  -- What the last parenthesis closes is the first, since the source ends behind it.
  obtain rfl := inside'.finishes (fresh_begun origin) indoors'.guarded finished
  obtain ⟨above, above', here, there, frames⟩ := inside'.frames
  obtain ⟨rfl, rfl⟩ := frames.nil
  have made : q.operand.isSome = true := Turns.made changes (List.ne_nil_of_mem deep.paren)
  obtain ⟨content, operand⟩ := Option.isSome_iff_exists.1 made
  obtain ⟨tag, width, floor, -⟩ := fresh_begun origin
  have reduced : q.reduceToOpener = .ok q := reduceToOpener_opener (here.trans floor) rfl
  obtain ⟨rfl, plain⟩ := ((fresh_begun origin).finish inside'.here made reduced here operand stop).1 _ _ finished
  refine ⟨q', taking_snoc taken' closing', ⟨there, inside'.behind operand, ?_, inside'.there, inside'.started⟩, plain⟩
  have outside : Parser.opened q.pending = [fileRule] := by
    rw [here]
    exact (fresh_begun origin).opened
  rw [inside'.registry, indoors'.registry outside, rules]

end Parser

end MixfixLambda
