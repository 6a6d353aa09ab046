import MixfixLambda.Proofs.Parse.Invariant
import MixfixLambda.Proofs.Parse.RoundTrip

/-!
# Sources without declarations

Every token of a source without declarations keeps the parser `Sound`, so that the tree of the source is one
of the default grammar.
-/
namespace MixfixLambda

/-- Whether the token is a word that starts a declaration. -/
def Token.Declares (token : Token) : Prop :=
  ∃ kind : DeclarationKind, token.symbol = some kind.keyword

namespace Parser

variable {p q : Parser} {rule : Rule} {tag : Tag}

theorem Waiting.undeclared {pending : List Pending} (waiting : Waiting pending) :
    ∀ o ∈ pending, ∀ kind, o.rule.reduction ≠ .declare kind := by
  have infixes : ∀ {rule : Rule}, IsInfix rule → ∀ kind, rule.reduction ≠ .declare kind := by
    intro rule infixes kind
    cases infixes with
    | separator separates => fin_cases separates <;> exact Reduction.noConfusion
    | operation _ sections =>
      rw [(sectionable_facts sections).2.2]
      exact Reduction.noConfusion
    | _ => exact Reduction.noConfusion
  induction waiting with
  | nil => simp
  | opener _ opens _ ih =>
    refine List.forall_mem_cons.2 ⟨fun kind => ?_, ih⟩
    fin_cases opens <;> exact Reduction.noConfusion
  | leading leads _ _ ih =>
    refine List.forall_mem_cons.2 ⟨fun kind => ?_, ih⟩
    fin_cases leads <;> exact Reduction.noConfusion
  | infixed between _ _ _ _ ih => exact List.forall_mem_cons.2 ⟨infixes between, ih⟩
  | headless listed sections _ _ ih =>
    refine List.forall_mem_cons.2 ⟨infixes (.operation listed sections), ?_⟩
    exact List.forall_mem_cons.2 ⟨fun kind => Reduction.noConfusion, ih⟩

theorem Sound.undeclared (s : Sound p) : p.Undeclared :=
  ⟨s.rules, s.waiting.undeclared⟩

/-! ### Operands -/

theorem Sound.push (s : Sound p) (infixes : IsInfix rule) (named : tag.text = rule.symbol)
    (present : p.operand.isSome = true) (founded : rule.right = 1 → Founded p.pending) :
    Sound (p.push rule tag) := by
  obtain ⟨left, operand⟩ := Option.isSome_iff_exists.1 present
  refine ⟨s.rules, ?_, nofun⟩
  have pushed : (p.push rule tag).pending = .infixed rule tag left :: p.pending := by
    rw [Parser.push, operand]
    rfl
  rw [pushed]
  exact .infixed infixes named (s.operand left operand) founded s.waiting

/-- Juxtaposition makes room for the next operand. -/
theorem separateOperands_sound {place : Span} (s : Sound p) (ok : p.separateOperands place = .ok q) :
    Sound q ∧ q.operand = none := by
  unfold separateOperands at ok
  split at ok
  · next present =>
    obtain ⟨reduced, reduces, ok⟩ := bind_ok ok
    obtain ⟨s', present', -⟩ := reduceLeft_sound s present (by decide) reduces
    cases ok
    exact ⟨s'.push .space rfl present' nofun, rfl⟩
  · next empty =>
    cases ok
    exact ⟨s, by simpa using empty⟩

theorem shiftOperand_sound {t : Tree} (s : Sound p) (standard : t.Standard)
    (ok : p.shiftOperand t = .ok q) : Sound q := by
  obtain ⟨free, separated, ok⟩ := bind_ok ok
  obtain ⟨s', -⟩ := separateOperands_sound s separated
  cases ok
  exact ⟨s'.rules, s'.waiting, fun other found => Option.some.inj found ▸ standard⟩

/-! ### Operators -/

theorem openBracket_sound (s : Sound p) (opens : rule ∈ openers) (empty : p.operand = none) :
    Sound (p.openBracket rule tag) := by
  refine ⟨s.rules, ?_, nofun⟩
  have opened : (p.openBracket rule tag).pending = .leading rule tag :: p.pending := by
    rw [openBracket, Parser.push, empty]
    rfl
  rw [opened]
  exact .opener tag opens s.waiting

/-- What a chain continues is its first or its second part. -/
theorem prior_of_listed (listed : rule ∈ defaultRules) {prior : String} (continues : rule.prior = some prior) :
    (prior = "if" ∨ prior = "then") ∧ rule.right ≠ 1 := by
  have parts : ∀ rule ∈ defaultRules, ∀ prior ∈ rule.prior,
      (prior = "if" ∨ prior = "then") ∧ rule.right ≠ 1 := by
    decide +kernel
  exact parts rule listed prior continues

theorem shiftInner_sound (s : Sound p) (listed : rule ∈ defaultRules) (between : rule.fixity = .infixOp)
    (named : tag.text = rule.symbol) (ok : p.shiftInner rule tag = .ok q) : Sound q := by
  have infixes := isInfix_of_listed listed between
  obtain ⟨-, same, bounds⟩ := infixes.facts
  unfold shiftInner at ok
  split at ok
  · next empty =>
    split at ok
    · next edge =>
      rw [Bool.and_eq_true] at edge
      cases ok
      obtain ⟨opening, rest, here, waiting⟩ := s.waiting.paren_inv edge.2
      refine ⟨s.rules, ?_, fun t found => ?_⟩
      · change Waiting (headless rule tag :: p.pending)
        rw [here]
        exact .headless listed edge.1 named waiting
      · change p.operand = some t at found
        rw [found] at empty
        cases empty
    · cases ok
  · next present =>
    have present : p.operand.isSome = true := by
      rwa [Option.isNone_iff_eq_none, ← ne_eq, ← Option.isSome_iff_ne_none] at present
    cases continues : rule.prior with
    | some prior =>
      simp only [continues, between, reduceCtorEq, if_false] at ok
      obtain ⟨reduced, reduces, ok⟩ := bind_ok ok
      cases ok
      obtain ⟨part, loose⟩ := prior_of_listed listed continues
      obtain ⟨s', present'⟩ := reduceToPrior_sound s present part reduces
      exact s'.push infixes named present' fun one => absurd one loose
    | none =>
      simp only [continues, between, reduceCtorEq, if_false] at ok
      obtain ⟨reduced, reduces, ok⟩ := bind_ok ok
      cases ok
      have least : 1 ≤ rule.left := by
        rcases bounds with ⟨-, one, -⟩ | ⟨loose, -⟩ <;> omega
      obtain ⟨s', present', founded⟩ := reduceLeft_sound s present least reduces
      exact s'.push infixes named present' fun one => founded (same.trans one)

theorem fixity_of_listed (listed : rule ∈ defaultRules) (plain : ∀ kind : DeclarationKind, rule.symbol ≠ kind.keyword) :
    (rule.fixity = .opening → rule ∈ openers) ∧ (rule.fixity = .prefixOp → rule ∈ prefixes) ∧
      rule.fixity ≠ .postfixOp := by
  have kinds : ∀ rule ∈ defaultRules, (∀ kind ∈ DeclarationKind.all, rule.symbol ≠ kind.keyword) →
      (rule.fixity = .opening → rule ∈ openers) ∧ (rule.fixity = .prefixOp → rule ∈ prefixes) ∧
        rule.fixity ≠ .postfixOp := by
    decide +kernel
  exact kinds rule listed fun kind _ => plain kind

theorem shiftOperator_sound (s : Sound p) (listed : rule ∈ defaultRules) (named : tag.text = rule.symbol)
    (plain : ∀ kind : DeclarationKind, rule.symbol ≠ kind.keyword) (ok : p.shiftOperator rule tag = .ok q) : Sound q := by
  obtain ⟨opening, leading, postfixed⟩ := fixity_of_listed listed plain
  unfold shiftOperator at ok
  split at ok
  · next fixity =>
    obtain ⟨free, separated, ok⟩ := bind_ok ok
    obtain ⟨s', empty⟩ := separateOperands_sound s separated
    cases ok
    exact openBracket_sound s' (opening fixity) empty
  · exact closeBracket_sound s ok
  · next fixity =>
    obtain ⟨free, separated, ok⟩ := bind_ok ok
    obtain ⟨s', empty⟩ := separateOperands_sound s separated
    cases ok
    refine ⟨s'.rules, ?_, nofun⟩
    rw [push, empty]
    exact .leading (leading fixity) named s'.waiting
  · next fixity => exact shiftInner_sound s listed fixity named ok
  · next fixity => exact absurd fixity postfixed

theorem shiftSymbol_sound {text : String} {span : Span} (s : Sound p) (word : IsWord text.toList)
    (plain : ∀ kind : DeclarationKind, text ≠ kind.keyword) (ok : p.shiftSymbol text span = .ok q) :
    Sound q := by
  have u := s.undeclared
  rcases Registry.default_lookup_cases text with unruled | ⟨listed, same⟩
  · rw [u.shiftName unruled] at ok
    have standard : (Tree.name (p.tag text span)).Standard := .name word unruled
    exact shiftOperand_sound s standard ok
  · generalize Registry.default.lookup text = rule at listed same
    subst same
    rw [u.shiftOperator listed] at ok
    exact shiftOperator_sound s listed rfl plain ok

/-! ### Lines -/

theorem shiftNewline_sound {width : Nat} {span : Span} (s : Sound p)
    (ok : p.shiftNewline width span = .ok q) : Sound q := by
  unfold shiftNewline at ok
  split at ok
  · cases ok
    exact s
  dsimp only at ok
  split at ok
  · cases ok
    exact ⟨s.rules, s.waiting, s.operand⟩
  -- A layout without a block counts as one without indentation.
  split at ok
  all_goals
    split at ok
    · split at ok
      · cases ok
        exact s
      split at ok
      · cases ok
      · next empty _ =>
        cases ok
        have s' : Sound { p with layout := .block width :: p.layout } := ⟨s.rules, s.waiting, s.operand⟩
        exact openBracket_sound s' (by decide) (by simpa using empty)
    · obtain ⟨closed, closes, ok⟩ := bind_ok ok
      have s' := closeBlocks_sound s closes
      split at ok
      · cases ok
      split at ok
      · next present =>
        obtain ⟨reduced, reduces, ok⟩ := bind_ok ok
        obtain ⟨s'', present', founded⟩ := reduceLeft_sound s' present (by decide) reduces
        cases ok
        exact s''.push (.separator (by decide)) rfl present' fun _ => founded rfl
      · cases ok
        exact s'

/-! ### Sources -/

theorem shift_sound {token : Token} {span : Span} (s : Sound p) (lexical : token.Lexical)
    (plain : ¬token.Declares) (ok : p.shift token span = .ok q) : Sound q := by
  cases token with
  | eof =>
    cases ok
    exact s
  | newline width => exact shiftNewline_sound s ok
  | int value => exact shiftOperand_sound s (.int lexical.1 lexical.2 span) ok
  | str bytes => exact shiftOperand_sound s (.str bytes span) ok
  | char value => exact shiftOperand_sound s (.char value span) ok
  | name text | operator text =>
    exact shiftSymbol_sound s lexical (fun kind same => plain ⟨kind, congrArg some same⟩) ok

theorem run_standard {xs : List (Except LexicalError Lexeme)} {t : Tree} (s : Sound p)
    (each : ∀ x, .ok x ∈ xs → x.token.Lexical ∧ ¬x.token.Declares) (ok : p.run xs = .ok (t, q)) :
    t.Standard := by
  fun_induction run p xs with
  | case1 => exact finish_standard s ok
  | case2 => cases ok
  | case3 => exact finish_standard s ok
  | case4 => cases ok
  | case5 p token span rest _ q' shifted ih =>
    obtain ⟨lexical, plain⟩ := each ⟨token, span⟩ (List.mem_cons_self ..)
    exact ih (shift_sound s lexical plain shifted) (fun x inside => each x (List.mem_cons_of_mem _ inside)) ok

theorem start_sound (origin : Origin) : Sound (start .default origin) :=
  ⟨rfl, .opener _ (by decide) .nil, nofun⟩

end Parser

/-- Without declarations, a source makes a tree of the default grammar. -/
theorem parse_standard {text : String} {origin : Origin} {t : Tree}
    (plain : ∀ x, .ok x ∈ lexemes text → ¬x.token.Declares) (parsed : parse text origin = .ok t) :
    t.Standard := by
  unfold parse at parsed
  split at parsed
  · next behind ran =>
    cases parsed
    exact Parser.run_standard (Parser.start_sound origin)
      (fun x inside => ⟨Lexer.lexemes_lexical inside, plain x inside⟩) ran
  · cases parsed

/-- Printing a parsed source and parsing it again changes nothing but the places. -/
theorem parse_render_parse {text : String} {origin again : Origin} {t : Tree}
    (plain : ∀ x, .ok x ∈ lexemes text → ¬x.token.Declares) (parsed : parse text origin = .ok t)
    (legible : t.isLegible = true) :
    ∃ t', parse t.render again = .ok t' ∧ t'.unlocated = t.unlocated ∧ t'.render = t.render := by
  obtain ⟨t', reparsed, same⟩ := (parse_standard plain parsed).parse_render legible again
  refine ⟨t', reparsed, same, ?_⟩
  rw [← Tree.render_unlocated t', same, Tree.render_unlocated]

/-- Parameter lists, sections, a chain, a block, brackets and literals. -/
def mixedSource : String :=
  "f = \\x ys@[y, _] -> if x < 10 then (x :) ys else (.)\ng : \"\\n\" =\n  'a'; (f 1 (+ 2), ())\n"

theorem parse_render_parse_mixed : ∃ t t', parse mixedSource .module = .ok t ∧
    parse t.render .prelude = .ok t' ∧ t'.unlocated = t.unlocated ∧ t'.render = t.render := by
  have words : ∀ token ∈ (lexemes mixedSource).filterMap (·.toOption.map Lexeme.token),
      ∀ kind ∈ DeclarationKind.all, token.symbol ≠ some kind.keyword := by
    decide +kernel
  have plain : ∀ x, .ok x ∈ lexemes mixedSource → ¬x.token.Declares := by
    rintro x inside ⟨kind, declares⟩
    have token : x.token ∈ (lexemes mixedSource).filterMap (·.toOption.map Lexeme.token) :=
      List.mem_filterMap.2 ⟨.ok x, inside, rfl⟩
    exact words x.token token kind (by cases kind <;> decide) declares
  have legible : (parse mixedSource .module).toOption.any Tree.isLegible = true := by decide +kernel
  obtain ⟨t, parsed, legible⟩ := exists_ok_of_any legible
  obtain ⟨t', again⟩ : ∃ t', parse t.render .prelude = .ok t' ∧ _ :=
    parse_render_parse plain parsed legible
  exact ⟨t, t', parsed, again⟩

/-- A declared operator that is a word is printed without parentheses also where it is a value, and then
the printed text is refused. -/
theorem parse_render_word_operator : ∃ t error, parse "infixl 70 div\n(div)" .module = .ok t ∧
    t.render = "(infixl 70 div; div)" ∧ parse t.render .module = .error error := by
  have refused : (parse "infixl 70 div\n(div)" .module).toOption.any (fun t =>
      t.render == "(infixl 70 div; div)" && (parse t.render .module).toOption.isNone) = true := by
    decide +kernel
  obtain ⟨t, parsed, refused⟩ := exists_ok_of_any refused
  rw [Bool.and_eq_true, beq_iff_eq] at refused
  obtain ⟨shown, refused⟩ := refused
  cases again : parse t.render .module with
  | ok t' =>
    rw [again] at refused
    cases refused
  | error error => exact ⟨t, error, parsed, shown, again⟩

end MixfixLambda
