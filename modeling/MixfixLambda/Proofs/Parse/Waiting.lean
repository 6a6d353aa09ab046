import MixfixLambda.Proofs.Parse.Chain

/-!
# What the parser holds of a source without declarations

The operators that wait are those of the default grammar, each behind a tree of the default grammar, and
nothing but separators waits under a separator. Reductions keep this, so that whatever they make is a tree
of the default grammar again. The one exception is a section whose left operand is left out, which only
its closing parenthesis may reduce.
-/
namespace MixfixLambda

namespace Tree

/-- Items between commas, before a bracket lists them. -/
def Commas (t : Tree) : Prop :=
  ∃ parts span, t = .comma parts span ∧ 2 ≤ parts.length ∧ ∀ part ∈ parts, part.Standard

theorem attachBody?_standard {tag : Tag} {body left t : Tree} (named : tag.text = "->")
    (standard : left.Standard) (inner : body.Standard) (attached : attachBody? tag body left = some t) :
    t.Standard := by
  induction standard generalizing t with
  | marker named' operand ih =>
    rw [attachBody?, named', if_pos (by decide)] at attached
    cases attached
    exact .lambda named operand inner
  | ifAlone named' condition ih =>
    rw [attachBody?, named', if_neg (by decide), Option.map_eq_some_iff] at attached
    obtain ⟨operand, found, rfl⟩ := attached
    exact .ifAlone named' (ih found)
  | apply head operand span _ ih =>
    rw [attachBody?, Option.map_eq_some_iff] at attached
    obtain ⟨argument, found, rfl⟩ := attached
    exact .apply head (ih found) _
  | infixOp listed sections named' first _ _ ih =>
    rw [attachBody?, Option.map_eq_some_iff] at attached
    obtain ⟨right, found, rfl⟩ := attached
    exact .infixOp listed sections named' first (ih found)
  | _ => cases attached

theorem abstract_standard {tag : Tag} {left body : Tree} (named : tag.text = "->")
    (standard : left.Standard) (inner : body.Standard) : (abstract tag left body).Standard := by
  rw [abstract]
  cases attached : attachBody? tag body left with
  | none => exact .lambda named standard inner
  | some t => exact attachBody?_standard named standard inner attached

end Tree

namespace Parser

/-- The separators of lines and of statements, and the one of items. -/
def breaks : List Rule :=
  [Rule.newline, .infixOp ";" 1 .right .sequence, .infixOp "," 1 .right .comma]

/-- The infix operators of a source without declarations. -/
inductive IsInfix : Rule → Prop
  | separator {rule : Rule} (separates : rule ∈ breaks) : IsInfix rule
  | operation {rule : Rule} (listed : rule ∈ defaultRules) (sections : rule.isSectionable = true) :
      IsInfix rule
  | space : IsInfix Rule.space
  | define : IsInfix (.infixOp "=" 2 .none .define)
  | lambda : IsInfix (.infixOp "->" 3 .right .lambda)
  | asPattern : IsInfix (.infixOp "@" 97 .right .asPattern)
  | secondPart : IsInfix thenRule
  | thirdPart : IsInfix elseRule

theorem isInfix_of_listed {rule : Rule} (listed : rule ∈ defaultRules)
    (between : rule.fixity = .infixOp) : IsInfix rule := by
  have kinds : ∀ rule ∈ defaultRules, rule.fixity = .infixOp → rule ∈ breaks ∨
      rule.isSectionable = true ∨ rule = .infixOp "=" 2 .none .define ∨
      rule = .infixOp "->" 3 .right .lambda ∨ rule = .infixOp "@" 97 .right .asPattern ∨
      rule = thenRule ∨ rule = elseRule := by
    decide +kernel
  rcases kinds rule listed between with separates | sections | rfl | rfl | rfl | rfl | rfl
  · exact .separator separates
  · exact .operation listed sections
  · exact .define
  · exact .lambda
  · exact .asPattern
  · exact .secondPart
  · exact .thirdPart

/-- An infix operator separates, and then nothing is grouped to the left of it, or it binds tighter. -/
theorem IsInfix.facts {rule : Rule} (infixes : IsInfix rule) :
    rule.fixity = .infixOp ∧ rule.left = rule.right ∧
      (rule ∈ breaks ∧ rule.right = 1 ∧ rule.assoc = .right ∨ 2 ≤ rule.right ∧ rule ∉ breaks) := by
  cases infixes with
  | separator separates => fin_cases separates <;> exact ⟨rfl, rfl, .inl ⟨by decide, rfl, rfl⟩⟩
  | operation listed sections =>
    have bounds : ∀ rule ∈ defaultRules, rule.isSectionable = true →
        rule.left = rule.right ∧ 2 ≤ rule.right ∧ rule ∉ breaks := by
      decide +kernel
    obtain ⟨same, bound, no⟩ := bounds _ listed sections
    exact ⟨(sectionable_facts sections).1, same, .inr ⟨bound, no⟩⟩
  | _ => exact ⟨rfl, rfl, .inr ⟨by decide, by decide⟩⟩

theorem sectionable_symbol : ∀ rule ∈ defaultRules, rule.isSectionable = true →
    rule.symbol ≠ "if" ∧ rule.symbol ≠ "then" := by
  decide +kernel

theorem IsInfix.symbol_ne_if {rule : Rule} (infixes : IsInfix rule) : rule.symbol ≠ "if" := by
  cases infixes with
  | separator separates =>
    have others : ∀ rule ∈ breaks, rule.symbol ≠ "if" := by decide
    exact others _ separates
  | operation listed sections => exact (sectionable_symbol _ listed sections).1
  | _ => decide

theorem IsInfix.eq_then {rule : Rule} (infixes : IsInfix rule) (here : rule.symbol = "then") :
    rule = thenRule := by
  cases infixes with
  | separator separates =>
    have others : ∀ rule ∈ breaks, rule.symbol ≠ "then" := by decide
    exact absurd here (others _ separates)
  | operation listed sections => exact absurd here (sectionable_symbol _ listed sections).2
  | secondPart => rfl
  | _ => exact absurd here (by decide)

/-- The brackets of a source, written or not. -/
def openers : List Rule :=
  [.opening "(" ")" .paren, .opening "[" "]" .square, .opening "\x7b" "\x7d" .brace, fileRule, blockRule]

/-- The prefix operators other than those of declarations. -/
def prefixes : List Rule :=
  [.prefixOp "let" 3 .erase, ifRule, .prefixOp "\\" 4 .operator]

/-- Nothing but separators waits up to the bracket. -/
def Founded (pending : List Pending) : Prop :=
  ∀ top ∈ pending.head?, top.rule.right ≤ 1

/-- Operators that may wait in a source without declarations. -/
inductive Waiting : List Pending → Prop
  | nil : Waiting []
  | opener {rule : Rule} {below : List Pending} (tag : Tag) (opens : rule ∈ openers)
      (rest : Waiting below) : Waiting (.leading rule tag :: below)
  | leading {rule : Rule} {tag : Tag} {below : List Pending} (leads : rule ∈ prefixes)
      (named : tag.text = rule.symbol) (rest : Waiting below) : Waiting (.leading rule tag :: below)
  | infixed {rule : Rule} {tag : Tag} {left : Tree} {below : List Pending} (infixes : IsInfix rule)
      (named : tag.text = rule.symbol) (operand : left.Standard)
      (founded : rule.right = 1 → Founded below) (rest : Waiting below) :
      Waiting (.infixed rule tag left :: below)
  | headless {rule : Rule} {tag opening : Tag} {below : List Pending} (listed : rule ∈ defaultRules)
      (sections : rule.isSectionable = true) (named : tag.text = rule.symbol) (rest : Waiting below) :
      Waiting (headless rule tag :: paren opening :: below)

/-! ### What operators make -/

theorem ofInfix_standard {rule : Rule} {tag : Tag} {left right : Tree} (infixes : IsInfix rule)
    (start : rule.prior = none) (named : tag.text = rule.symbol) (first : left.Standard)
    (loose : 2 ≤ rule.right) (second : right.Standard) :
    (Tree.ofInfix rule.reduction tag left right).Standard := by
  cases infixes with
  | separator separates =>
    have one : ∀ rule ∈ breaks, rule.right = 1 := by decide
    exact absurd loose (by rw [one _ separates]; decide)
  | operation listed sections =>
    rw [(sectionable_facts sections).2.2]
    exact .infixOp listed sections named first second
  | space => exact .apply first second _
  | define => exact .define named first second
  | lambda => exact Tree.abstract_standard named first second
  | asPattern => exact .asPattern named first second
  | secondPart | thirdPart => cases start

theorem separate_sequence_standard {left right : Tree} (first : left.Standard)
    (second : right.Standard ∨ Tree.Commas right) : (Tree.separate .sequence left right).Standard := by
  have cons : ∀ {items : List Tree}, (∀ t ∈ items, t.Standard) → ∀ t ∈ left :: items, t.Standard := by
    intro items each t inside
    rcases List.mem_cons.1 inside with rfl | inside
    · exact first
    · exact each t inside
  rcases second with second | ⟨parts, span, rfl, several, each⟩
  · by_cases sequence : ∃ items span, right = .sequence items span
    · obtain ⟨items, span, rfl⟩ := sequence
      cases second with
      | sequence each => exact .sequence (cons each) _
      | sequenceComma each eachPart several =>
        exact Tree.Standard.sequenceComma (cons each) eachPart several _
    · have single : Tree.itemsOf .sequence right = none := by
        cases right <;> first
          | rfl
          | exact absurd ⟨_, _, rfl⟩ sequence
      have alone : ∀ t ∈ [right], t.Standard := fun t inside => List.mem_singleton.1 inside ▸ second
      simp only [Tree.separate, single, Option.getD_none]
      exact .sequence (cons alone) _
  · have none : ∀ t ∈ ([] : List Tree), t.Standard := by simp
    exact Tree.Standard.sequenceComma (cons none) each several _

theorem separate_comma_commas {left right : Tree} (first : left.Standard)
    (second : right.Standard ∨ Tree.Commas right) : Tree.Commas (Tree.separate .comma left right) := by
  rcases second with second | ⟨parts, span, rfl, several, each⟩
  · simp only [Tree.separate, Tree.itemsOf_comma second.isComma_eq_false, Option.getD_none]
    refine ⟨_, _, rfl, by simp, fun part inside => ?_⟩
    rcases List.mem_cons.1 inside with rfl | inside
    · exact first
    · rw [List.mem_singleton.1 inside]
      exact second
  · simp only [Tree.separate, Tree.itemsOf, Option.getD_some]
    refine ⟨_, _, rfl, Nat.le_succ_of_le several, fun part inside => ?_⟩
    rcases List.mem_cons.1 inside with rfl | inside
    · exact first
    · exact each part inside

/-- A separator makes a chain of statements, or of items. -/
theorem ofInfix_break {rule : Rule} {tag : Tag} {left right : Tree} (separates : rule ∈ breaks)
    (first : left.Standard) (second : right.Standard ∨ Tree.Commas right) :
    (Tree.ofInfix rule.reduction tag left right).Standard ∨
      Tree.Commas (Tree.ofInfix rule.reduction tag left right) := by
  fin_cases separates
  · exact .inl (separate_sequence_standard first second)
  · exact .inl (separate_sequence_standard first second)
  · exact .inr (separate_comma_commas first second)

/-! ### Reductions -/

variable {p q : Parser} {top : Pending} {below : List Pending} {right : Tree}

/-- A reduction took an operator off that had both of its operands. -/
structure Reduced (p : Parser) (separated : Prop) (q : Parser) : Prop where
  registry : q.registry = p.registry
  waiting : Waiting q.pending
  /-- Only separators make commas, and only separators or a bracket are under them. -/
  operand : ∃ t, q.operand = some t ∧ (t.Standard ∨ separated ∧ Tree.Commas t)
  founded : separated → Founded q.pending

/-- What is left of a parenthesis is a section. -/
def Sectioned (p : Parser) (q : Parser) : Prop :=
  ∃ opening below body, (∀ span, (Tree.sectionOf body span).Standard) ∧ body.isComma = false ∧
    Waiting below ∧ q = { p with operand := some body, pending := sectioned opening :: below }

/-- Where a chain looks for its part before, only that part has the symbol. -/
theorem waiting_if (waiting : Waiting (top :: below)) (here : top.rule.symbol = "if") :
    ∃ tag, tag.text = "if" ∧ top = .leading ifRule tag := by
  cases waiting with
  | opener tag opens =>
    have others : ∀ rule ∈ openers, rule.symbol ≠ "if" := by decide
    exact absurd here (others _ opens)
  | leading leads named =>
    have one : ∀ rule ∈ prefixes, rule.symbol = "if" → rule = ifRule := by decide
    exact ⟨_, named.trans here, by rw [one _ leads here]⟩
  | infixed infixes => exact absurd here infixes.symbol_ne_if
  | headless listed sections => exact absurd here (IsInfix.operation listed sections).symbol_ne_if

theorem waiting_then (waiting : Waiting (top :: below)) (here : top.rule.symbol = "then") :
    ∃ tag left, tag.text = "then" ∧ left.Standard ∧ top = .infixed thenRule tag left := by
  cases waiting with
  | opener tag opens =>
    have others : ∀ rule ∈ openers, rule.symbol ≠ "then" := by decide
    exact absurd here (others _ opens)
  | leading leads named =>
    have others : ∀ rule ∈ prefixes, rule.symbol ≠ "then" := by decide
    exact absurd here (others _ leads)
  | infixed infixes named operand => exact ⟨_, _, named.trans here, operand, by rw [infixes.eq_then here]⟩
  | headless listed sections => exact absurd here (sectionable_symbol _ listed sections).2

theorem Waiting.tail (waiting : Waiting (top :: below)) : Waiting below := by
  cases waiting with
  | opener _ _ rest | leading _ _ rest | infixed _ _ _ _ rest => exact rest
  | headless _ _ _ rest => exact .opener _ (by decide) rest

/-- The first part of a chain ends it. -/
theorem reduceMixfix_if {parts : List Tag} {operands : List Tree} (tag : Tag) :
    p.reduceMixfix parts operands (.leading ifRule tag) below =
      .ok (.mixfix (tag :: parts) operands, below) := by
  rw [reduceMixfix.eq_def]
  rfl

theorem reduceMixfix_then {parts : List Tag} {operands : List Tree} {tag : Tag} {left t : Tree}
    {rest : List Pending} (waiting : Waiting below)
    (ok : p.reduceMixfix parts operands (.infixed thenRule tag left) below = .ok (t, rest)) :
    ∃ opening, opening.text = "if" ∧ t = .mixfix (opening :: tag :: parts) (left :: operands) ∧
      Waiting rest := by
  cases below with
  | nil => cases ok
  | cons previous below =>
    rw [reduceMixfix.eq_def] at ok
    simp only [Pending.infixed, Pending.leading, thenRule, Rule.after] at ok
    split at ok
    · next here =>
      obtain ⟨opening, named, rfl⟩ := waiting_if waiting here
      rw [reduceMixfix_if] at ok
      cases ok
      exact ⟨opening, named, rfl, waiting.tail⟩
    · cases ok

/-- A chain of `if`, `then` and `else` is collected from its last part. -/
theorem reduceMixfix_standard {rule : Rule} {tag : Tag} {left t : Tree} {rest : List Pending}
    (infixes : IsInfix rule) (continues : rule.prior.isSome = true) (named : tag.text = rule.symbol)
    (first : left.Standard) (second : right.Standard) (waiting : Waiting below)
    (ok : p.reduceMixfix [] [right] (.infixed rule tag left) below = .ok (t, rest)) :
    t.Standard ∧ Waiting rest := by
  cases infixes with
  | separator separates =>
    have none : ∀ rule ∈ breaks, rule.prior.isSome = false := by decide
    rw [none _ separates] at continues
    cases continues
  | operation listed sections =>
    rw [(sectionable_facts sections).2.1] at continues
    cases continues
  | space | define | lambda | asPattern => cases continues
  | secondPart =>
    obtain ⟨opening, named', rfl, behind⟩ := reduceMixfix_then waiting ok
    exact ⟨.ifThen named' named first second, behind⟩
  | thirdPart =>
    cases below with
    | nil => cases ok
    | cons previous below =>
      rw [reduceMixfix.eq_def] at ok
      simp only [Pending.infixed, Pending.leading, elseRule, Rule.after] at ok
      split at ok
      · next here =>
        obtain ⟨middle, test, continued, condition, rfl⟩ := waiting_then waiting here
        obtain ⟨opening, named', rfl, behind⟩ := reduceMixfix_then waiting.tail ok
        exact ⟨.ifThenElse named' continued named condition first second, behind⟩
      · cases ok

theorem IsInfix.reduced {rule : Rule} {tag : Tag} {left : Tree} (infixes : IsInfix rule)
    (named : tag.text = rule.symbol) (first : left.Standard) (founded : rule.right = 1 → Founded below)
    (rest : Waiting below) (operand : right.Standard ∨ rule.right ≤ 1 ∧ Tree.Commas right)
    (ok : p.reduceTop (.infixed rule tag left) below right = .ok q) :
    Reduced p (rule.right = 1) q := by
  obtain ⟨between, -, bounds⟩ := infixes.facts
  cases start : rule.prior with
  | none =>
    rw [reduceTop_infixed start between] at ok
    cases ok
    rcases bounds with ⟨separates, one, -⟩ | ⟨loose, -⟩
    · have made : (Tree.ofInfix rule.reduction tag left right).Standard ∨ Tree.Commas _ :=
        ofInfix_break separates first (operand.imp_right And.right)
      exact ⟨rfl, rest, ⟨_, rfl, made.imp_right fun commas => ⟨one, commas⟩⟩, founded⟩
    · have second : right.Standard := operand.resolve_right fun ⟨tight, _⟩ => absurd tight (by omega)
      have made := ofInfix_standard infixes start named first loose second
      exact ⟨rfl, rest, ⟨_, rfl, .inl made⟩, founded⟩
  | some prior =>
    have loose : ¬rule.right ≤ 1 := by
      rcases bounds with ⟨separates, -⟩ | ⟨loose, -⟩
      · have none : ∀ rule ∈ breaks, rule.prior = none := by decide
        rw [none _ separates] at start
        cases start
      · omega
    have second : right.Standard := operand.resolve_right fun ⟨tight, _⟩ => loose tight
    have continues : rule.prior.isSome = true := by rw [start]; rfl
    rw [reduceTop, if_pos (by exact continues)] at ok
    split at ok
    · cases ok
    · next t behind collected =>
      cases ok
      obtain ⟨made, rest'⟩ := reduceMixfix_standard infixes continues named first second rest collected
      exact ⟨rfl, rest', ⟨t, rfl, .inl made⟩, fun one => absurd (Nat.le_of_eq one) loose⟩

theorem reduceTop_reduced (waiting : Waiting (top :: below)) (operator : top.rule.isOpener = false)
    (operand : right.Standard ∨ top.rule.right ≤ 1 ∧ Tree.Commas right)
    (ok : p.reduceTop top below right = .ok q) :
    Reduced p (top.rule.right = 1) q ∧ top.missingLeft = false ∨ Sectioned p q ∧ top.missingLeft = true := by
  cases waiting with
  | opener tag opens rest =>
    have brackets : ∀ rule ∈ openers, rule.isOpener = true := by decide
    rw [show (Pending.leading _ tag).rule.isOpener = true from brackets _ opens] at operator
    cases operator
  | @leading rule tag _ leads named rest =>
    have loose : ∀ rule ∈ prefixes, 1 < rule.right := by decide
    have bound := loose rule leads
    have second : right.Standard := operand.resolve_right fun ⟨tight, _⟩ => absurd tight (Nat.not_le.2 bound)
    have founded : rule.right = 1 → Founded below := fun one => absurd one (Nat.ne_of_gt bound)
    refine .inl ⟨?_, rfl⟩
    fin_cases leads <;> cases ok
    · exact ⟨rfl, rest, ⟨_, rfl, .inl second⟩, founded⟩
    · exact ⟨rfl, rest, ⟨_, rfl, .inl (.ifAlone named second)⟩, founded⟩
    · exact ⟨rfl, rest, ⟨_, rfl, .inl (.marker named second)⟩, founded⟩
  | infixed infixes named first founded rest =>
    exact .inl ⟨infixes.reduced named first founded rest operand ok, rfl⟩
  | @headless rule tag opening below listed sections named rest =>
    obtain ⟨between, start, operation⟩ := sectionable_facts sections
    have loose : 2 ≤ rule.right := by
      rcases (IsInfix.operation listed sections).facts.2.2 with ⟨separates, -⟩ | ⟨loose, -⟩
      · have none : ∀ rule ∈ breaks, rule.isSectionable = false := by decide
        rw [none _ separates] at sections
        cases sections
      · exact loose
    have second : right.Standard :=
      operand.resolve_right fun ⟨tight, _⟩ => absurd tight (Nat.not_le.2 loose)
    let missing := Span.point tag.span.start
    refine .inr ⟨⟨opening, below, .infixOp tag (.placeholder missing) right,
      .rightSection listed sections named second, rfl, rest, ?_⟩, rfl⟩
    have opens : (paren opening).rule.isOpener = true := rfl
    simp [reduceTop, headless, Pending.leading, start, between, operation, Tree.ofInfix, markSection,
      opens] at ok
    rw [← ok]
    rfl

end Parser

end MixfixLambda
