import Mathlib
import MixfixLambda.Proofs.Parse.RoundTrip

/-!
# Core trees

The trees that programs are made of: no literals of text, no symbolic names and no markers. All of them are
legible, so that every core tree is what its printed text is parsed as.
-/
namespace MixfixLambda

namespace Tree

/-- A letter or `_`, then letters, digits, `_` and quotes, all of them ASCII. -/
def isIdentifier (text : String) : Bool :=
  match text.toList with
  | [] => false
  | c :: more => (c.isAlpha || c == '_') && more.all fun d => d.isAlphanum || d == '_' || d == '\x27'

inductive Core : Tree → Prop
  | int {value : Int} (natural : 0 ≤ value) (fits : value ≤ maxInt) (span : Span) :
      Core (.int value span)
  | name {tag : Tag} (identifier : isIdentifier tag.text = true)
      (unruled : Registry.default.lookup tag.text = Rule.operand tag.text) : Core (.name tag)
  | apply {function argument : Tree} (head : function.Core) (operand : argument.Core) (span : Span) :
      Core (.apply function argument span)
  /-- The infix operators of the default grammar that make ordinary operations. -/
  | infixOp {tag : Tag} {rule : Rule} {left right : Tree} (listed : rule ∈ defaultRules)
      (sections : rule.isSectionable = true) (named : tag.text = rule.symbol) (first : left.Core)
      (second : right.Core) : Core (.infixOp tag left right)
  | leftSection {tag : Tag} {rule : Rule} {left : Tree} {missing : Span} (listed : rule ∈ defaultRules)
      (sections : rule.isSectionable = true) (named : tag.text = rule.symbol) (operand : left.Core)
      (span : Span) : Core (.sectionOf (.infixOp tag left (.placeholder missing)) span)
  | rightSection {tag : Tag} {rule : Rule} {right : Tree} {missing : Span}
      (listed : rule ∈ defaultRules) (sections : rule.isSectionable = true)
      (named : tag.text = rule.symbol) (operand : right.Core) (span : Span) :
      Core (.sectionOf (.infixOp tag (.placeholder missing) right) span)
  | lambda {tag : Tag} {pattern body : Tree} (named : tag.text = "->") (left : pattern.Core)
      (right : body.Core) : Core (.lambda tag pattern body)
  | define {tag : Tag} {pattern body : Tree} (named : tag.text = "=") (left : pattern.Core)
      (right : body.Core) : Core (.define tag pattern body)
  | asPattern {tag bound : Tag} {pattern : Tree} (named : tag.text = "@") (left : Core (.name bound))
      (right : pattern.Core) : Core (.asPattern tag (.name bound) pattern)
  | tuple {items : List Tree} (each : ∀ t ∈ items, t.Core) (several : 2 ≤ items.length) (span : Span) :
      Core (.tuple items span)
  | sequence {items : List Tree} (each : ∀ t ∈ items, t.Core) (several : 2 ≤ items.length)
      (last : ∀ t ∈ items.getLast?, t.isSequence = false) (span : Span) : Core (.sequence items span)
  | list {items : List Tree} (each : ∀ t ∈ items, t.Core) (span : Span) : Core (.list items span)
  | data {items : List Tree} (each : ∀ t ∈ items, t.Core) (span : Span) : Core (.data items span)
  | unit (span : Span) : Core (.unit span)
  | ifThen {opening middle : Tag} {test yes : Tree} (named : opening.text = "if")
      (continued : middle.text = "then") (condition : test.Core) (first : yes.Core) :
      Core (.mixfix [opening, middle] [test, yes])
  | ifThenElse {opening middle closing : Tag} {test yes no : Tree} (named : opening.text = "if")
      (continued : middle.text = "then") (ended : closing.text = "else") (condition : test.Core)
      (first : yes.Core) (second : no.Core) :
      Core (.mixfix [opening, middle, closing] [test, yes, no])

theorem identifier_facts_of_low : ∀ c : Char, c.toNat < 0x80 →
    unicodeAlias c = none ∧ (c.isAlphanum → Cursor.isNameChar c) := by
  refine Cursor.forall_low ?_
  decide

theorem isAlphanum_low {c : Char} (letter : c.isAlphanum = true) : c.toNat < 0x80 := by
  simp only [Char.isAlphanum, Char.isAlpha, Char.isUpper, Char.isLower, Char.isDigit, Bool.or_eq_true,
    Bool.and_eq_true, decide_eq_true_eq, ge_iff_le, UInt32.le_iff_toNat_le] at letter
  have upper : ∀ {n : UInt32}, n.toNat < 0x80 → c.val.toNat ≤ n.toNat → c.toNat < 0x80 :=
    fun small below => Nat.lt_of_le_of_lt below small
  rcases letter with (⟨-, below⟩ | ⟨-, below⟩) | ⟨-, below⟩ <;> exact upper (by decide) below

theorem isWord_of_isIdentifier {text : String} (identifier : isIdentifier text = true) :
    IsWord text.toList := by
  unfold isIdentifier at identifier
  split at identifier
  · cases identifier
  · next c more spelled =>
    rw [spelled]
    simp only [Bool.and_eq_true, Bool.or_eq_true, beq_iff_eq, List.all_eq_true] at identifier
    obtain ⟨first, inner⟩ := identifier
    have low : c.toNat < 0x80 := by
      rcases first with letter | rfl
      · exact isAlphanum_low (by simp [Char.isAlphanum, letter])
      · decide
    refine .identifier ?_ (identifier_facts_of_low c low).1 fun d inside => ?_
    · exact first.imp (fun letter => Text.isAlphabetic_of_isAlpha letter low) id
    · rcases inner d inside with (letter | rfl) | rfl
      · exact (identifier_facts_of_low d (isAlphanum_low letter)).2 letter
      · decide
      · decide

theorem Core.standard {t : Tree} (core : t.Core) : t.Standard := by
  induction core with
  | int natural fits span => exact .int natural fits span
  | name identifier unruled => exact .name (isWord_of_isIdentifier identifier) unruled
  | apply _ _ span head operand => exact .apply head operand span
  | infixOp listed sections named _ _ first second => exact .infixOp listed sections named first second
  | leftSection listed sections named _ span operand =>
    exact .leftSection listed sections named operand span
  | rightSection listed sections named _ span operand =>
    exact .rightSection listed sections named operand span
  | lambda named _ _ left right => exact .lambda named left right
  | define named _ _ left right => exact .define named left right
  | asPattern named _ _ left right => exact .asPattern named left right
  | tuple _ several span each => exact .tuple each several span
  | sequence _ _ _ span each => exact .sequence each span
  | list _ span each => exact .list each span
  | data _ span each => exact .data each span
  | unit span => exact .unit span
  | ifThen named continued _ _ condition first => exact .ifThen named continued condition first
  | ifThenElse named continued ended _ _ _ condition first second =>
    exact .ifThenElse named continued ended condition first second

/-- No core tree has a parameter list after `\` on its right edge. -/
theorem Core.endsInMarker_eq_false {t : Tree} (core : t.Core) : t.endsInMarker = false := by
  induction core with
  | apply _ _ _ _ operand => exact operand
  | infixOp _ _ _ _ _ _ second => exact second
  | _ => rfl

theorem Core.isLegible {t : Tree} (core : t.Core) : t.isLegible = true := by
  induction core with
  | int | name | unit => rfl
  | apply _ _ _ head operand => rw [Tree.isLegible, head, operand]; rfl
  | infixOp _ _ _ _ _ first second => rw [Tree.isLegible, first, second]; rfl
  | leftSection _ _ _ _ _ operand => simp [Tree.isLegible, operand]
  | rightSection _ _ _ _ _ operand => simp [Tree.isLegible, operand]
  | lambda _ core _ left right =>
    rw [Tree.isLegible, core.endsInMarker_eq_false, left, right]
    rfl
  | define _ _ _ left right | asPattern _ _ _ left right => rw [Tree.isLegible, left, right]; rfl
  | tuple _ _ _ each | list _ _ each | data _ _ each => exact eachLegible_iff.2 each
  | sequence _ several last _ each =>
    simp only [Tree.isLegible, several, decide_true, eachLegible_iff.2 each, Bool.true_and, Bool.and_true,
      Bool.not_eq_true']
    exact (Option.any_eq_false _ _).2 last
  | ifThen _ _ _ _ condition first => simp [Tree.isLegible, eachLegible, condition, first]
  | ifThenElse _ _ _ _ _ _ condition first second =>
    simp [Tree.isLegible, eachLegible, condition, first, second]

end Tree

/-- Parsing undoes printing on core trees, of any depth. -/
theorem parse_render_core {t : Tree} (core : t.Core) (origin : Origin) :
    ∃ t', parse t.render origin = .ok t' ∧ t'.unlocated = t.unlocated :=
  core.standard.parse_render core.isLegible origin

/-- `f = (x@[y] -> (if (x == 1) then ((* 2) 3) else {}))`, as a tree. -/
def coreSample : Tree :=
  let name (text : String) : Tree := .name (.synthetic text)
  let missing : Tree := .placeholder Span.origin
  let parameter : Tree := .asPattern (.synthetic "@") (name "x") (.list [name "y"] Span.origin)
  let test : Tree := .infixOp (.synthetic "==") (name "x") (.int 1 Span.origin)
  let double : Tree := .sectionOf (.infixOp (.synthetic "*") missing (.int 2 Span.origin)) Span.origin
  let choice : Tree := .mixfix [.synthetic "if", .synthetic "then", .synthetic "else"]
    [test, .apply double (.int 3 Span.origin) Span.origin, .data [] Span.origin]
  .define (.synthetic "=") (name "f") (.lambda (.synthetic "->") parameter choice)

theorem core_name {text : String} (short : text ∈ ["f", "x", "y"]) :
    Tree.Core (.name (.synthetic text)) := by
  have plain : ∀ text ∈ ["f", "x", "y"], Tree.isIdentifier text = true ∧
      ∀ rule ∈ defaultRules, rule.symbol ≠ text := by
    decide +kernel
  exact .name (plain text short).1 (Registry.default_lookup_operand (plain text short).2)

theorem core_coreSample : coreSample.Core := by
  have listed : Rule.infixOp "==" 40 .none .operator ∈ defaultRules ∧
      Rule.infixOp "*" 70 .left .operator ∈ defaultRules := by
    decide +kernel
  have one (n : Nat) (small : n < 4) : Tree.Core (.int n Span.origin) :=
    .int (Int.natCast_nonneg n) (by simp only [maxInt]; omega) _
  refine .define rfl (core_name (by decide)) (.lambda rfl ?_ ?_)
  · refine .asPattern rfl (core_name (by decide)) (.list ?_ _)
    intro t inside
    rw [List.mem_singleton.1 inside]
    exact core_name (by decide)
  · refine .ifThenElse rfl rfl rfl ?_ ?_ (.data (by simp) _)
    · exact .infixOp listed.1 rfl rfl (core_name (by decide)) (one 1 (by decide))
    · exact .apply (.rightSection listed.2 rfl rfl (one 2 (by decide)) _) (one 3 (by decide)) _

theorem parse_render_core_choice : ∃ t', parse coreSample.render .module = .ok t' ∧
    t'.unlocated = coreSample.unlocated :=
  parse_render_core core_coreSample .module

end MixfixLambda
