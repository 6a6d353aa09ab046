import MixfixLambda.Proofs.Syntax.Default
import MixfixLambda.Proofs.Token.Spelling
import MixfixLambda.Proofs.Tree.Unlocated

/-!
# Trees of the default grammar

The trees that sources without declarations have. Nearly all of them are printed as texts that say the
same again. The exceptions are parameter lists that end in another parameter list, which would take the
body of the outer one, and chains of statements of no or one item, or with a chain at their end, which
come from blocks without any token.
-/
namespace MixfixLambda.Tree

/-- Whether the right edge of a tree is a parameter list after `\`, to which a body would go. -/
def endsInMarker : Tree → Bool
  | .prefixOp operator operand => operator.text == "\\" || operand.endsInMarker
  | .apply _ argument _ => argument.endsInMarker
  | .infixOp _ _ right => right.endsInMarker
  | _ => false

def isSequence : Tree → Bool
  | .sequence _ _ => true
  | _ => false

def isComma : Tree → Bool
  | .comma _ _ => true
  | _ => false

mutual

/-- Whether the printed tree says the same as the tree, for trees of the default grammar. -/
def isLegible : Tree → Bool
  | .apply function argument _ => function.isLegible && argument.isLegible
  | .infixOp _ left right | .define _ left right | .asPattern _ left right =>
    left.isLegible && right.isLegible
  | .prefixOp _ operand | .postfixOp _ operand => operand.isLegible
  | .mixfix _ operands => eachLegible operands
  | .bracket _ _ content => content.isLegible
  | .lambda _ pattern body => !pattern.endsInMarker && pattern.isLegible && body.isLegible
  | .sequence items _ =>
    2 ≤ items.length && !(items.getLast?).any isSequence && eachLegible items
  | .comma items _ | .tuple items _ | .list items _ | .data items _ => eachLegible items
  | .sectionOf body _ => body.isLegible
  | _ => true

/-- Whether all of them are legible. -/
def eachLegible : List Tree → Bool
  | [] => true
  | t :: rest => t.isLegible && eachLegible rest

end

theorem eachLegible_iff {ts : List Tree} : eachLegible ts = true ↔ ∀ t ∈ ts, t.isLegible = true := by
  induction ts with
  | nil => simp [eachLegible]
  | cons t ts ih => simp [eachLegible, ih]

/-- A tree that the default grammar makes of a source without declarations. -/
inductive Standard : Tree → Prop
  | int {value : Int} (natural : 0 ≤ value) (fits : value ≤ maxInt) (span : Span) :
      Standard (.int value span)
  | str (bytes : List UInt8) (span : Span) : Standard (.str bytes span)
  | char (value : Char) (span : Span) : Standard (.char value span)
  /-- A word without a rule. -/
  | name {tag : Tag} (word : IsWord tag.text.toList)
      (unruled : Registry.default.lookup tag.text = Rule.operand tag.text) : Standard (.name tag)
  /-- An operator in parentheses. -/
  | operator {tag : Tag} {rule : Rule} (listed : rule ∈ defaultRules)
      (sections : rule.isSectionable = true) (named : tag.text = rule.symbol) : Standard (.name tag)
  | apply {function argument : Tree} (head : function.Standard) (operand : argument.Standard)
      (span : Span) : Standard (.apply function argument span)
  | infixOp {tag : Tag} {rule : Rule} {left right : Tree} (listed : rule ∈ defaultRules)
      (sections : rule.isSectionable = true) (named : tag.text = rule.symbol)
      (first : left.Standard) (second : right.Standard) : Standard (.infixOp tag left right)
  | marker {tag : Tag} {operand : Tree} (named : tag.text = "\\") (parameters : operand.Standard) :
      Standard (.prefixOp tag operand)
  | ifAlone {tag : Tag} {operand : Tree} (named : tag.text = "if") (condition : operand.Standard) :
      Standard (.prefixOp tag operand)
  | ifThen {opening middle : Tag} {test yes : Tree} (named : opening.text = "if")
      (continued : middle.text = "then") (condition : test.Standard) (first : yes.Standard) :
      Standard (.mixfix [opening, middle] [test, yes])
  | ifThenElse {opening middle closing : Tag} {test yes no : Tree} (named : opening.text = "if")
      (continued : middle.text = "then") (ended : closing.text = "else") (condition : test.Standard)
      (first : yes.Standard) (second : no.Standard) :
      Standard (.mixfix [opening, middle, closing] [test, yes, no])
  | define {tag : Tag} {pattern body : Tree} (named : tag.text = "=") (left : pattern.Standard)
      (right : body.Standard) : Standard (.define tag pattern body)
  | lambda {tag : Tag} {pattern body : Tree} (named : tag.text = "->") (left : pattern.Standard)
      (right : body.Standard) : Standard (.lambda tag pattern body)
  | asPattern {tag : Tag} {bound pattern : Tree} (named : tag.text = "@") (left : bound.Standard)
      (right : pattern.Standard) : Standard (.asPattern tag bound pattern)
  | sequence {items : List Tree} (each : ∀ t ∈ items, t.Standard) (span : Span) :
      Standard (.sequence items span)
  /-- `;` and `,` bind alike, so that commas may end a chain of statements. -/
  | sequenceComma {items parts : List Tree} {inner : Span} (each : ∀ t ∈ items, t.Standard)
      (eachPart : ∀ t ∈ parts, t.Standard) (several : 2 ≤ parts.length) (span : Span) :
      Standard (.sequence (items ++ [.comma parts inner]) span)
  | unit (span : Span) : Standard (.unit span)
  | tuple {items : List Tree} (each : ∀ t ∈ items, t.Standard) (several : 2 ≤ items.length)
      (span : Span) : Standard (.tuple items span)
  | list {items : List Tree} (each : ∀ t ∈ items, t.Standard) (span : Span) :
      Standard (.list items span)
  | data {items : List Tree} (each : ∀ t ∈ items, t.Standard) (span : Span) :
      Standard (.data items span)
  | leftSection {tag : Tag} {rule : Rule} {left : Tree} {missing : Span} (listed : rule ∈ defaultRules)
      (sections : rule.isSectionable = true) (named : tag.text = rule.symbol)
      (operand : left.Standard) (span : Span) :
      Standard (.sectionOf (.infixOp tag left (.placeholder missing)) span)
  | rightSection {tag : Tag} {rule : Rule} {right : Tree} {missing : Span}
      (listed : rule ∈ defaultRules) (sections : rule.isSectionable = true)
      (named : tag.text = rule.symbol) (operand : right.Standard) (span : Span) :
      Standard (.sectionOf (.infixOp tag (.placeholder missing) right) span)

theorem isWord_symbol : ∀ rule ∈ defaultRules, IsWord rule.symbol.toList := by
  decide +kernel

theorem isSymbolic_symbol :
    ∀ rule ∈ defaultRules, rule.isSectionable = true → isSymbolic rule.symbol = true := by
  decide +kernel

theorem Standard.isComma_eq_false {t : Tree} (standard : t.Standard) : t.isComma = false := by
  cases standard <;> rfl

theorem Standard.isPlaceholder_eq_false {t : Tree} (standard : t.Standard) :
    t.isPlaceholder = false := by
  cases standard <;> rfl

@[simp]
theorem isComma_unlocated (t : Tree) : t.unlocated.isComma = t.isComma := by
  cases t <;> rfl

theorem itemsOf_comma {t : Tree} (plain : t.isComma = false) : itemsOf .comma t = none := by
  cases t <;> first
    | rfl
    | cases plain

theorem itemsOf_sequence {t : Tree} (plain : t.isSequence = false) : itemsOf .sequence t = none := by
  cases t <;> first
    | rfl
    | cases plain

@[simp]
theorem endsInMarker_unlocated (t : Tree) : t.unlocated.endsInMarker = t.endsInMarker := by
  induction t using endsInMarker.induct with
  | case1 operator operand ih => simp [unlocated, endsInMarker, ih]
  | case2 _ argument _ ih => simp [unlocated, endsInMarker, ih]
  | case3 _ _ right ih => simp [unlocated, endsInMarker, ih]
  | case4 t prefixOp apply infixOp =>
    cases t with
    | prefixOp operator operand => exact absurd rfl (prefixOp operator operand)
    | apply function argument span => exact absurd rfl (apply function argument span)
    | infixOp operator left right => exact absurd rfl (infixOp operator left right)
    | _ => rfl

/-- Without a marker at its edge, a parameter list takes the body as a whole. -/
theorem abstract_eq {left : Tree} (plain : left.endsInMarker = false) (tag : Tag) (body : Tree) :
    abstract tag left body = .lambda tag left body := by
  have none : attachBody? tag body left = none := by
    induction left using endsInMarker.induct with
    | case1 operator operand ih =>
      rw [endsInMarker, Bool.or_eq_false_iff] at plain
      simp [attachBody?, plain.1, ih plain.2]
    | case2 _ argument _ ih => simp [attachBody?, ih plain]
    | case3 _ _ right ih => simp [attachBody?, ih plain]
    | case4 t prefixOp apply infixOp =>
      cases t with
      | prefixOp operator operand => exact absurd rfl (prefixOp operator operand)
      | apply function argument span => exact absurd rfl (apply function argument span)
      | infixOp operator left right => exact absurd rfl (infixOp operator left right)
      | _ => rfl
  rw [abstract, none, Option.getD_none]

end MixfixLambda.Tree
