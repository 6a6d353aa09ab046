import MixfixLambda.Parse.Bracket
import MixfixLambda.Token.Stream

/-!
# Parsing

`Parser.shift` takes one token. An incoming operator first reduces the pending operators that bind
tighter. `parse` reads a whole source under the default grammar.
-/
namespace MixfixLambda

namespace Parser

/-- Puts the operator of juxtaposition behind the operand read last. -/
def juxtapose (p : Parser) (at_ : Span) : Parsing Parser := do
  let tag := p.tag " " (Span.point at_.start)
  return (← p.reduceLeft Rule.space tag).push Rule.space tag

/-- Makes room for a new operand: two operands in a row are juxtaposed. -/
def separateOperands (p : Parser) (at_ : Span) : Parsing Parser :=
  if p.operand.isSome then p.juxtapose at_ else .ok p

def shiftOperand (p : Parser) (t : Tree) : Parsing Parser := do
  return { ← p.separateOperands t.span with operand := some t }

/-- Takes an infix or a postfix operator. It needs an operand to its left, except that a section may leave
it out directly behind `(`. -/
def shiftInner (p : Parser) (rule : Rule) (tag : Tag) : Parsing Parser :=
  if p.operand.isNone then
    if rule.isSectionable && (p.pending.head?).any Pending.isParen then
      .ok { p with pending := { Pending.leading rule tag with missingLeft := true } :: p.pending }
    else p.refuseOperand tag
  else do
    let p ←
      match rule.prior with
      | some prior => p.reduceToPrior prior tag
      | none => p.reduceLeft rule tag
    if rule.fixity = .postfixOp then
      match p.operand with
      | some operand => return { p with operand := some (.postfixOp tag operand) }
      | none => p.refuseOperand tag
    else return p.push rule tag

def shiftOperator (p : Parser) (rule : Rule) (tag : Tag) : Parsing Parser :=
  match rule.fixity with
  | .opening => do return (← p.separateOperands tag.span).openBracket rule tag
  | .closing => p.closeBracket rule tag
  | .prefixOp => do return (← p.separateOperands tag.span).push rule tag
  | .infixOp | .postfixOp => p.shiftInner rule tag

/-- Whether a symbol is a word of a declaration. The words of a declaration are operands up to a separator
or a bracket, so that operators can be declared anew. -/
def isDeclared (p : Parser) (rule : Rule) : Bool :=
  if rule.isSeparator || rule.reduction == .comma || rule.fixity == .opening
      || rule.fixity == .closing then false
  else
    match p.pending.find? (·.rule.reduction != .apply) with
    | some top =>
      match top.rule.reduction with
      | .declare _ => true
      | _ => false
    | none => false

def shiftSymbol (p : Parser) (text : String) (span : Span) : Parsing Parser :=
  let rule := p.registry.lookup text
  let tag := p.tag text span
  if rule.isOperand || p.isDeclared rule then p.shiftOperand (.name tag)
  else p.shiftOperator rule tag

/-- A line break in front of a line of the given indentation. The first line sets the indentation of the
file. A deeper line opens a block where an operand is wanted and continues its line otherwise. -/
def shiftNewline (p : Parser) (width : Nat) (span : Span) : Parsing Parser :=
  match p.layout with
  | .explicit :: _ => .ok p
  | layout =>
    let current :=
      match layout with
      | .block current :: _ => current
      | _ => 0
    if !p.started then
      .ok { p with
        started := true
        layout :=
          match layout with
          | .block _ :: outer => .block width :: outer
          | _ => layout }
    else if width > current then
      if p.operand.isSome then .ok p
      else if (width - current) % 2 = 1 then p.refuse (.oddIndentation width) span
      else .ok (p.openBlock width span)
    else do
      let p ← closeBlocks (width < ·) span p layout
      if p.layout.head? ≠ some (.block width) then
        p.refuse (.inconsistentIndentation width) span
      else if p.operand.isSome then
        let tag := p.tag "newline" span
        return (← p.reduceLeft Rule.newline tag).push Rule.newline tag
      else return p

/-- Takes one token that is not the end of the file. -/
def shift (p : Parser) (token : Token) (span : Span) : Parsing Parser :=
  match token with
  | .eof => .ok p
  | .newline width => p.shiftNewline width span
  | .int value => p.shiftOperand (.int value span)
  | .str bytes => p.shiftOperand (.str bytes span)
  | .char value => p.shiftOperand (.char value span)
  | .name text | .operator text => p.shiftSymbol text span

/-- Takes all tokens of a stream. -/
def run (p : Parser) : List (Except LexicalError Lexeme) → Parsing (Tree × Parser)
  | [] => p.finish Span.origin
  | .error e :: _ => p.refuse (.lexical e.cause) e.span
  | .ok ⟨.eof, span⟩ :: _ => p.finish span
  | .ok ⟨token, span⟩ :: rest =>
    match p.shift token span with
    | .error refusal => .error refusal
    | .ok p => run p rest

end Parser

/-- Parses a text under the given rules; the parser that is left shows the rules at the end. -/
def parseUnder (registry : Registry) (origin : Origin) (text : String) : Parsing (Tree × Parser) :=
  (Parser.start registry origin).run (lexemes text)

/-- Parses a text under the default grammar. The origin says which source the tags point into. -/
def parse (text : String) (origin : Origin) : Except ParseError Tree :=
  match parseUnder .default origin text with
  | .ok (tree, _) => .ok tree
  | .error refusal => .error refusal.error

end MixfixLambda
