import MixfixLambda.Proofs.Parse.Precedence
import MixfixLambda.Proofs.Tree.Standard

/-!
# Lines of operands and operators

A line of operands with operators or nothing between them is read as the chain of its operators. The
parser accepts it if and only if the chain is consistent, and then its tree is the one that splitting at the
loosest operators gives.
-/
namespace MixfixLambda

/-- A literal or a word without a rule, and the tree that it stands for. -/
inductive IsOperand (registry : Registry) (origin : Origin) : Lexeme → Tree → Prop
  | int (value : Int) (span : Span) : IsOperand registry origin ⟨.int value, span⟩ (.int value span)
  | str (bytes : List UInt8) (span : Span) : IsOperand registry origin ⟨.str bytes, span⟩ (.str bytes span)
  | char (value : Char) (span : Span) : IsOperand registry origin ⟨.char value, span⟩ (.char value span)
  | name {token : Token} {text : String} (word : token.symbol = some text)
      (unruled : registry.find? text = none) (span : Span) :
      IsOperand registry origin ⟨token, span⟩ (.name ⟨text, span, origin⟩)

/-- The tokens behind the first operand of a line, and the chain that they are: every operand is led by the
symbol of an operator, or juxtaposed. `among` says which trees the operators make. -/
inductive Line (among : Reduction → Prop) (registry : Registry) (origin : Origin) :
    List Lexeme → List (Link × Tree) → Prop
  | nil : Line among registry origin [] []
  | operator {token : Token} {text : String} {span : Span} {x : Lexeme} {b : Tree} {o : Link}
      {xs : List Lexeme} {c : List (Link × Tree)} (word : token.symbol = some text)
      (ruled : registry.lookup text = o.rule) (makes : among o.rule.reduction)
      (here : o.tag = ⟨text, span, origin⟩) (operand : IsOperand registry origin x b)
      (rest : Line among registry origin xs c) :
      Line among registry origin (⟨token, span⟩ :: x :: xs) ((o, b) :: c)
  | juxtaposed {x : Lexeme} {b : Tree} {o : Link} {xs : List Lexeme} {c : List (Link × Tree)}
      (ruled : o.rule = Rule.space) (here : o.tag = ⟨" ", Span.point x.span.start, origin⟩)
      (operand : IsOperand registry origin x b) (rest : Line among registry origin xs c) :
      Line among registry origin (x :: xs) ((o, b) :: c)

theorem Line.makes {among : Reduction → Prop} {registry : Registry} {origin : Origin} {xs : List Lexeme}
    {c : List (Link × Tree)} (line : Line among registry origin xs c) :
    ∀ o ∈ c.map Prod.fst, among o.rule.reduction ∨ o.rule.reduction = .apply := by
  induction line with
  | nil => simp
  | operator _ _ makes _ _ _ ih =>
    rw [List.map_cons, List.forall_mem_cons]
    exact ⟨.inl makes, ih⟩
  | juxtaposed ruled _ _ _ ih =>
    rw [List.map_cons, List.forall_mem_cons]
    exact ⟨.inr (congrArg Rule.reduction ruled), ih⟩

theorem IsOperand.isComma_eq_false {registry : Registry} {origin : Origin} {x : Lexeme} {b : Tree}
    (operand : IsOperand registry origin x b) : b.isComma = false := by
  cases operand <;> rfl

theorem IsOperand.span {registry : Registry} {origin : Origin} {x : Lexeme} {b : Tree}
    (operand : IsOperand registry origin x b) : b.span = x.span := by
  cases operand <;> rfl

namespace Parser

variable {p q base : Parser} {opener : Pending} {operators below : List Pending} {x : Lexeme}
  {a b t : Tree} {c part : List (Link × Tree)} {o : Link} {among : Reduction → Prop}

/-- An operand is taken whatever it is. -/
theorem shift_operand (operand : IsOperand p.registry p.origin x b) :
    x.token ≠ .eof ∧ p.shift x.token x.span = p.shiftOperand b := by
  cases operand with
  | @name token text word unruled span =>
    have plain : p.registry.lookup text = Rule.operand text := by rw [Registry.lookup, unruled]
    cases token with
    | name _ | operator _ =>
      cases word
      refine ⟨Token.noConfusion, ?_⟩
      simp only [shift, shiftSymbol, plain]
      rfl
    | _ => cases word
  | _ => exact ⟨Token.noConfusion, rfl⟩

/-- The state before a line of the file: nothing waits but the file. -/
def Fresh (p : Parser) : Prop :=
  ∃ tag width, p.pending = [.leading fileRule tag] ∧ p.layout = [.block width]

/-- The operators of a chain do not declare anything. -/
theorem isDeclared_holding (fresh : base.Fresh) (holds : Holds operators a c b part)
    (plain : ∀ o ∈ c.map Prod.fst, ∀ kind, o.rule.reduction ≠ .declare kind) (rule : Rule) :
    (base.holding operators t).isDeclared rule = false := by
  obtain ⟨tag, width, here, -⟩ := fresh
  unfold isDeclared
  split
  · rfl
  · split
    · next top found =>
      have inside := List.mem_of_find?_eq_some found
      rw [holding, here, List.mem_append, List.mem_singleton] at inside
      rcases inside with inside | rfl
      · obtain ⟨o, member, same⟩ := holds.link top inside
        split
        · next kind declares => exact absurd (same ▸ declares) (plain o member kind)
        · rfl
      · rfl
    · rfl

/-- The symbol of an operator first reduces what does not wait for it, and then waits itself. -/
theorem shift_operator {token : Token} {text : String} {span : Span} (word : token.symbol = some text)
    (ruled : p.registry.lookup text = o.rule) (tagged : o.tag = ⟨text, span, p.origin⟩)
    (operator : o.rule.reduction ≠ .operand) (declared : p.isDeclared o.rule = false)
    (behind : p.operand.isSome = true) :
    token ≠ .eof ∧
      p.shift token span = (do return (← p.reduceLeft o.rule o.tag).push o.rule o.tag) := by
  have named : p.shift token span = p.shiftSymbol text span ∧ token ≠ .eof := by
    cases token with
    | name _ | operator _ =>
      cases word
      exact ⟨rfl, Token.noConfusion⟩
    | _ => cases word
  have ruled' : o.rule.isOperand = false := by simpa [Rule.isOperand] using operator
  have here : p.tag text span = o.tag := tagged.symm
  have some : p.operand.isNone = false := by simpa using behind
  refine ⟨named.2, ?_⟩
  rw [named.1]
  simp only [shiftSymbol, ruled, ruled', declared, here, shiftOperator, shiftInner, o.between, o.start, some,
    Bool.or_self, Bool.false_eq_true, if_false, reduceCtorEq]

/-- An operator and the operand behind it. -/
def extend (p : Parser) (o : Link) (b : Tree) : Parsing Parser := do
  return { (← p.reduceLeft o.rule o.tag).push o.rule o.tag with operand := some b }

/-- Behind an operand another one is juxtaposed. -/
theorem shiftOperand_juxtaposed (ruled : o.rule = Rule.space)
    (tagged : o.tag = ⟨" ", Span.point b.span.start, p.origin⟩) (behind : p.operand.isSome = true) :
    p.shiftOperand b = p.extend o b := by
  have here : p.tag " " (Span.point b.span.start) = o.tag := tagged.symm
  simp only [shiftOperand, separateOperands, behind, if_true, juxtapose, here, ← ruled, extend]
  cases p.reduceLeft o.rule o.tag <;> rfl

/-- The operators of a line are neither operands nor do they declare anything. -/
def Plain (among : Reduction → Prop) : Prop :=
  ∀ r, among r → r ≠ .operand ∧ ∀ kind, r ≠ .declare kind

/-- Behind an operand a line is read operator by operator. -/
theorem run_link (plain : Plain among) {xs : List Lexeme} {more : List (Link × Tree)}
    (line : Line among p.registry p.origin xs ((o, b) :: more)) (behind : p.operand.isSome = true)
    (declared : ∀ rule, p.isDeclared rule = false)
    (keeps : ∀ q, p.reduceLeft o.rule o.tag = .ok q → q.registry = p.registry ∧ q.origin = p.origin)
    (rest : List (Except LexicalError Lexeme)) :
    ∃ ys, Line among p.registry p.origin ys more ∧ (∀ kind, o.rule.reduction ≠ .declare kind) ∧
      p.run (xs.map .ok ++ rest) = p.extend o b >>= (·.run (ys.map .ok ++ rest)) := by
  cases line with
  | @operator _ _ _ x _ _ xs _ word ruled makes here operand line =>
    refine ⟨xs, line, (plain _ makes).2, ?_⟩
    obtain ⟨more, shifted⟩ := shift_operator word ruled here (plain _ makes).1 (declared _) behind
    simp only [List.map_cons, List.cons_append]
    cases reduced : p.reduceLeft o.rule o.tag with
    | error refusal =>
      rw [reduced] at shifted
      rw [run_error more shifted, extend, reduced]
      rfl
    | ok q =>
      rw [reduced] at shifted
      obtain ⟨rules, origin⟩ := keeps q reduced
      rw [← rules, ← origin] at operand
      obtain ⟨some, taken⟩ := shift_operand (p := q.push o.rule o.tag) operand
      have pushed : (q.push o.rule o.tag).shift x.token x.span =
          .ok { q.push o.rule o.tag with operand := .some b } := taken
      rw [run_ok more shifted, run_ok some pushed, extend, reduced]
      rfl
  | @juxtaposed x _ _ xs _ ruled here operand line =>
    refine ⟨xs, line, fun kind => by rw [ruled]; exact Reduction.noConfusion, ?_⟩
    obtain ⟨more, taken⟩ := shift_operand operand
    rw [← operand.span] at here
    rw [shiftOperand_juxtaposed ruled here behind] at taken
    simp only [List.map_cons, List.cons_append]
    cases extended : p.extend o b with
    | error refusal =>
      rw [run_error more (taken.trans extended)]
      rfl
    | ok q =>
      rw [run_ok more (taken.trans extended)]
      rfl

/-- The tree of a file whose only line has been reduced. -/
def closed (p : Parser) (t : Tree) : Parsing (Tree × Parser) :=
  match t with
  | .comma _ place => .error ⟨⟨.strayComma, place⟩, p.registry⟩
  | t => .ok (t, { p with operand := none, pending := [] })

/-- The end of the file reduces the whole line. -/
theorem finish_holding (fresh : base.Fresh) (holds : Holds operators a c b part) (grouped : Grouped b part t)
    (span : Span) : ∃ t', Grouped a c t' ∧ (base.holding operators t).finish span = base.closed t' := by
  obtain ⟨tag, width, here, layout⟩ := fresh
  obtain ⟨t', whole, reduced⟩ := reduceToOpener_holding here rfl holds grouped
  refine ⟨t', whole, ?_⟩
  have blocks : closeBlocks (fun _ => true) span (base.holding operators t) (base.holding operators t).layout =
      .ok (base.holding operators t) := by
    rw [holding, layout]
    rfl
  have dropped : (base.holding operators t).dropSeparators = base.holding operators t := dropSeparators_some rfl
  have popped : (base.holding [] t').popBracket (base.tag "end of file" span) =
      .ok (some t', .leading fileRule tag, { base with operand := none, pending := [] }) := by
    simp [popBracket, holding, here, Pending.leading, fileRule, Rule.opening, Rule.isOpener]
  have named : (base.holding [] t').tag "end of file" span = base.tag "end of file" span := rfl
  simp only [finish, blocks, dropped, reduced, named, popped, bind, Except.bind, closed]
  cases t' <;> rfl

/-- Operators and juxtapositions make no chain of items. -/
theorem closed_operators (operand : a.isComma = false)
    (makes : ∀ o ∈ c.map Prod.fst, o.rule.reduction = .operator ∨ o.rule.reduction = .apply)
    (grouped : Grouped a c t) (p : Parser) :
    p.closed t = .ok (t, { p with operand := none, pending := [] }) := by
  have plain : t.isComma = false := by
    cases grouped with
    | operand => exact operand
    | @join _ _ _ _ before after o _ _ _ _ =>
      rcases makes o (by simp) with operator | apply
      · rw [Link.join, operator]
        rfl
      · rw [Link.join, apply]
        rfl
  cases t with
  | comma => cases plain
  | _ => rfl

/-- A line is accepted with a tree that groups its chain, unless the chain is not consistent. -/
theorem run_line (plain : Plain among) (fresh : base.Fresh) {xs : List Lexeme} {more : List (Link × Tree)}
    (line : Line among base.registry base.origin xs more) (holds : Holds operators a c b [])
    (links : ∀ o ∈ c.map Prod.fst, ∀ kind, o.rule.reduction ≠ .declare kind) (stop : Span)
    (rest : List (Except LexicalError Lexeme)) :
    let outcome := (base.holding operators b).run (xs.map .ok ++ .ok ⟨.eof, stop⟩ :: rest)
    (∃ t, Grouped a (c ++ more) t ∧ outcome = base.closed t) ∨
      ¬Consistent ((c ++ more).map Prod.fst) ∧
        ∃ refusal left right, outcome = .error refusal ∧ refusal.error.cause = .nonAssociative left right := by
  induction more generalizing operators b c xs with
  | nil =>
    cases line
    obtain ⟨t, grouped, finished⟩ := finish_holding fresh holds (.operand b) stop
    exact .inl ⟨t, by rwa [List.append_nil], finished⟩
  | cons head more ih =>
    obtain ⟨o, b'⟩ := head
    obtain ⟨tag, width, here, -⟩ := id fresh
    have declared := isDeclared_holding (t := b) fresh holds links
    rcases reduceLeft_holding o.tag (o := o) here rfl holds (.operand b) (by simp) with
      ⟨operators', _, _, t, reduced, holds', grouped, tighter, waits⟩ | ⟨refusal, reduced, reason, never⟩
    · obtain ⟨ys, line', operator, ran⟩ := run_link plain (p := base.holding operators b) line rfl declared
        (fun q found => by cases reduced.symm.trans found; exact ⟨rfl, rfl⟩) (.ok ⟨.eof, stop⟩ :: rest)
      have extended : (base.holding operators b).extend o b' =
          .ok (base.holding (.infixed o.rule o.tag t :: operators') b') := by
        rw [extend, reduced]
        rfl
      rw [extended] at ran
      dsimp only
      rw [ran, List.append_cons]
      refine ih line' (.next holds' grouped tighter waits (by simp)) fun x inside => ?_
      rw [List.map_append, List.mem_append] at inside
      rcases inside with inside | inside
      · exact links x inside
      · rw [List.mem_singleton.1 inside]
        exact operator
    · obtain ⟨ys, -, -, ran⟩ := run_link plain (p := base.holding operators b) line rfl declared
        (fun q found => by cases reduced.symm.trans found) (.ok ⟨.eof, stop⟩ :: rest)
      have refused : (base.holding operators b).extend o b' = .error refusal := by
        rw [extend, reduced]
        rfl
      rw [refused] at ran
      obtain ⟨left, right, cause⟩ := reason
      refine .inr ⟨?_, refusal, left, right, ran, cause⟩
      rw [List.map_append]
      exact never (more.map Prod.fst)

/-- The tokens of a source of one line. The lexer puts the indentation in front. -/
def oneLine (margin : Option (Nat × Span)) (line : List Lexeme) (stop : Span)
    (rest : List (Except LexicalError Lexeme)) : List (Except LexicalError Lexeme) :=
  margin.toList.map (fun m => .ok ⟨.newline m.1, m.2⟩) ++ (line.map .ok ++ .ok ⟨.eof, stop⟩ :: rest)

variable {registry : Registry} {origin : Origin} {first : Lexeme} {xs : List Lexeme}

theorem run_oneLine (plain : Plain among) (operand : IsOperand registry origin first a)
    (line : Line among registry origin xs c) (margin : Option (Nat × Span)) (stop : Span)
    (rest : List (Except LexicalError Lexeme)) :
    let outcome := (start registry origin).run (oneLine margin (first :: xs) stop rest)
    (∃ t, ∃ p : Parser, Grouped a c t ∧ outcome = p.closed t) ∨
      ¬Consistent (c.map Prod.fst) ∧
        ∃ refusal left right, outcome = .error refusal ∧ refusal.error.cause = .nonAssociative left right := by
  have opened : ∃ p : Parser, p.Fresh ∧ p.registry = registry ∧ p.origin = origin ∧ p.operand = none ∧
      (start registry origin).run (oneLine margin (first :: xs) stop rest) =
        p.run (.ok first :: (xs.map .ok ++ .ok ⟨.eof, stop⟩ :: rest)) := by
    cases margin with
    | none => exact ⟨start registry origin, ⟨_, 0, rfl, rfl⟩, rfl, rfl, rfl, rfl⟩
    | some m =>
      have begins : (start registry origin).shift (.newline m.1) m.2 =
          .ok { start registry origin with started := true, layout := [.block m.1] } :=
        rfl
      have more : Token.newline m.1 ≠ .eof := nofun
      refine ⟨{ start registry origin with started := true, layout := [.block m.1] }, ⟨_, m.1, rfl, rfl⟩,
        rfl, rfl, rfl, ?_⟩
      exact run_ok more begins _
  obtain ⟨p, fresh, rfl, rfl, empty, opened⟩ := opened
  obtain ⟨some, taken⟩ := shift_operand operand
  have read : p.shift first.token first.span = .ok (p.holding [] a) := by
    rw [taken, shiftOperand, separateOperands_none empty]
    rfl
  dsimp only
  rw [opened, run_ok some read]
  rcases run_line plain fresh line (.part a []) (by simp) stop rest with ⟨t, grouped, accepted⟩ | refused
  · exact .inl ⟨t, p, grouped, accepted⟩
  · exact .inr refused

/-- A line of operands and operators is accepted if and only if its operators are consistent. Then its tree
is the only one that splitting it at loosest operators gives; otherwise the error says that two operators
do not associate. -/
theorem run_operators (operand : IsOperand registry origin first a)
    (line : Line (· = .operator) registry origin xs c) (margin : Option (Nat × Span)) (stop : Span)
    (rest : List (Except LexicalError Lexeme)) :
    let outcome := (start registry origin).run (oneLine margin (first :: xs) stop rest)
    ((∃ t q, outcome = .ok (t, q)) ↔ Consistent (c.map Prod.fst)) ∧
      (∀ t q, outcome = .ok (t, q) → ∀ t', Splits a c t' ↔ t' = t) ∧
      (¬Consistent (c.map Prod.fst) →
        ∃ refusal left right, outcome = .error refusal ∧
          refusal.error.cause = .nonAssociative left right) := by
  have plain : Plain (· = .operator) := by
    rintro _ rfl
    exact ⟨Reduction.noConfusion, fun _ => Reduction.noConfusion⟩
  dsimp only
  rcases run_oneLine plain operand line margin stop rest with
    ⟨t, p, grouped, accepted⟩ | ⟨inconsistent, refusal, left, right, refused, cause⟩
  · rw [accepted, closed_operators operand.isComma_eq_false line.makes grouped p]
    refine ⟨⟨fun _ => grouped.consistent, fun _ => ⟨t, _, rfl⟩⟩, fun t' q same => ?_,
      fun wrong => absurd grouped.consistent wrong⟩
    cases same
    exact fun t' => ⟨fun splits => splits.unique grouped.consistent grouped.splits,
      fun same => same ▸ grouped.splits⟩
  · rw [refused]
    exact ⟨⟨fun ⟨_, _, ok⟩ => (by cases ok), fun consistent => absurd consistent inconsistent⟩,
      fun _ _ ok => (by cases ok), fun _ => ⟨refusal, left, right, rfl, cause⟩⟩

theorem run_operators_difference : ∃ t q, parseUnder .default .module "a - 1 - b c" = .ok (t, q) ∧
    ∃ minus minus' space : Link, ∀ t', Splits (.name ⟨"a", ⟨0, 1⟩, .module⟩)
      [(minus, .int 1 ⟨4, 5⟩), (minus', .name ⟨"b", ⟨8, 9⟩, .module⟩), (space, .name ⟨"c", ⟨10, 11⟩, .module⟩)] t' ↔
        t' = t := by
  let minus (start : Nat) : Link :=
    ⟨.infixOp "-" 60 .left .operator, ⟨"-", ⟨start, start + 1⟩, .module⟩, rfl, rfl, rfl⟩
  let space : Link := ⟨Rule.space, ⟨" ", Span.point 10, .module⟩, rfl, rfl, rfl⟩
  have tokens : lexemes "a - 1 - b c" = oneLine (some (0, ⟨0, 0⟩)) [⟨.name "a", ⟨0, 1⟩⟩,
      ⟨.operator "-", ⟨2, 3⟩⟩, ⟨.int 1, ⟨4, 5⟩⟩, ⟨.operator "-", ⟨6, 7⟩⟩, ⟨.name "b", ⟨8, 9⟩⟩,
      ⟨.name "c", ⟨10, 11⟩⟩] ⟨11, 11⟩ [] := by
    decide +kernel
  have name {text : String} (unruled : Registry.default.find? text = none) (span : Span) :
      IsOperand .default .module ⟨.name text, span⟩ (.name ⟨text, span, .module⟩) :=
    .name rfl unruled span
  have operator : Registry.default.lookup "-" = .infixOp "-" 60 .left .operator := by decide +kernel
  have first : IsOperand .default .module ⟨.name "a", ⟨0, 1⟩⟩ (.name ⟨"a", ⟨0, 1⟩, .module⟩) :=
    name (by decide +kernel) _
  have line : Line (· = .operator) .default .module [⟨.operator "-", ⟨2, 3⟩⟩, ⟨.int 1, ⟨4, 5⟩⟩,
      ⟨.operator "-", ⟨6, 7⟩⟩, ⟨.name "b", ⟨8, 9⟩⟩, ⟨.name "c", ⟨10, 11⟩⟩]
      [(minus 2, .int 1 ⟨4, 5⟩), (minus 6, .name ⟨"b", ⟨8, 9⟩, .module⟩),
        (space, .name ⟨"c", ⟨10, 11⟩, .module⟩)] :=
    .operator rfl operator rfl rfl (.int ..) <|
      .operator rfl operator rfl rfl (name (by decide +kernel) _) <|
      .juxtaposed rfl rfl (name (by decide +kernel) _) .nil
  obtain ⟨accepted, tree, -⟩ := run_operators first line (some (0, ⟨0, 0⟩)) ⟨11, 11⟩ []
  obtain ⟨t, q, ok⟩ := accepted.2 (consistent_left (by decide))
  rw [← tokens] at ok
  rw [← tokens] at tree
  exact ⟨t, q, ok, minus 2, minus 6, space, tree t q ok⟩

end Parser

end MixfixLambda
