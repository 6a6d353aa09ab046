import MixfixLambda.Parse.Error
import MixfixLambda.Tree.Extent

/-!
# Syntax declarations

The operand of a declaration keyword is a juxtaposition of words, which is read as a precedence, the
declared symbols, and the symbol that they follow in a chain. A declaration of brackets has two symbols
and nothing else.
-/
namespace MixfixLambda.Declaration

/-- The precedence and the words behind it. -/
def takePrecedence : List Tree → Except DeclarationFault (Nat × List Tree)
  | .int value _ :: words =>
    if 0 ≤ value ∧ value ≤ Rule.maxPrecedence then .ok (value.toNat, words)
    else .error .precedenceOutOfRange
  | _ => .error .noPrecedence

/-- The symbols, and the one after the word `after`. `chains` says whether that word has its meaning. -/
def takeSymbols (chains : Bool) : List Tree → Except DeclarationFault (List Tag × Option Tag)
  | [] => .ok ([], none)
  | .name tag :: words =>
    if chains && tag.text == "after" then
      match words with
      | [.name prior] => .ok ([], some prior)
      | _ => .error .noSingleSymbolAfter
    else do
      let (symbols, prior) ← takeSymbols chains words
      return (tag :: symbols, prior)
  | _ => .error .notASymbol

/-- Reads the words of a declaration. -/
def ofWords (kind : DeclarationKind) (span : Span) (words : List Tree) :
    Except DeclarationFault Declaration := do
  let isPair := kind == .bracket
  let (precedence, words) ←
    if isPair then pure (none, words)
    else do
      let (precedence, words) ← takePrecedence words
      pure (some precedence, words)
  let (symbols, prior) ← takeSymbols (!isPair) words
  if symbols.isEmpty then throw .noSymbol
  if isPair && symbols.length != 2 then throw .noPair
  return ⟨kind, precedence, symbols, prior, span⟩

/-- The declaration that a keyword makes with its operand. -/
def ofOperand (kind : DeclarationKind) (keyword : Tag) (operand : Tree) :
    Except ParseError Declaration :=
  let span := keyword.span.merge operand.span
  let (head, arguments) := operand.spine
  match ofWords kind span (head :: arguments) with
  | .ok declaration => .ok declaration
  | .error fault => .error ⟨.invalidDeclaration keyword.text fault, span⟩

/-- The rule of one symbol of a declaration. -/
def ruleOf (d : Declaration) (symbol : String) : Rule :=
  let precedence := d.precedence.getD 0
  let rule :=
    match d.kind with
    | .infixLeft => Rule.infixOp symbol precedence .left .operator
    | .infixRight => Rule.infixOp symbol precedence .right .operator
    | .prefixOp => Rule.prefixOp symbol precedence .operator
    | .postfixOp => Rule.postfixOp symbol precedence
    | .infixNone | .bracket => Rule.infixOp symbol precedence .none .operator
  match d.prior with
  | some prior => rule.after prior.text
  | none => rule

/-- The rules that a declaration registers, each with the symbol that it comes from. -/
def rules (d : Declaration) : List (Tag × Rule) :=
  match d.kind, d.symbols with
  | .bracket, [opening, closing] =>
    [(opening, .opening opening.text closing.text .user),
      (closing, .closing closing.text opening.text .user)]
  | .bracket, _ => []
  | _, symbols => symbols.map fun symbol => (symbol, d.ruleOf symbol.text)

end MixfixLambda.Declaration
