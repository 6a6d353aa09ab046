import MixfixLambda.Parse.Reduce

/-!
# Brackets and blocks

Opening and closing of brackets, those that are written and those that indentation stands for, and the
operator sections that parentheses may hold.
-/
namespace MixfixLambda.Parser

/-- Makes an operator wait for its right operand; the operand read last becomes its left one. -/
def push (p : Parser) (rule : Rule) (tag : Tag) : Parser :=
  { p with
    operand := none
    pending := { Pending.leading rule tag with left := p.operand } :: p.pending }

/-- Opens a bracket. A block has recorded its layout already. -/
def openBracket (p : Parser) (rule : Rule) (tag : Tag) : Parser :=
  let layout := if rule.bracketKind = some .block then p.layout else .explicit :: p.layout
  { p with layout, registry := p.registry.pushScope }.push rule tag

/-- Drops separators that no operand follows. -/
def eraseSeparators (operand : Option Tree) (pending : List Pending) :
    Option Tree × List Pending :=
  match operand, pending with
  | none, top :: below =>
    if top.rule.isSeparator then eraseSeparators top.left below else (none, top :: below)
  | operand, pending => (operand, pending)

def dropSeparators (p : Parser) : Parser :=
  let (operand, pending) := eraseSeparators p.operand p.pending
  { p with operand, pending }

/-- Supplies what is left out in front of a closing bracket: `(op)` names the operator, and `(x op)`
gets a placeholder for the right operand. -/
def completeSection (p : Parser) : Parsing Parser :=
  match p.operand, p.pending with
  | none, top :: below =>
    let inParens := (below.head?).any Pending.isParen
    if top.rule.isOpener then .ok p
    else if top.missingLeft && inParens then
      .ok { p with operand := some (.name top.tag), pending := below }
    else if top.rule.isSectionable && !top.missingLeft && top.left.isSome && inParens then
      .ok { p with
        operand := some (.placeholder (Span.point top.tag.span.stop))
        pending := top :: markSection below }
    else p.refuseOperand top.tag
  | _, _ => .ok p

/-- Takes the innermost bracket, which has been reduced, and its content off the parser. -/
def popBracket (p : Parser) (closing : Tag) : Parsing (Option Tree × Pending × Parser) :=
  match p.pending with
  | opener :: below =>
    if opener.rule.isOpener then
      .ok (p.operand, opener, { p with operand := none, pending := below })
    else p.refuse (.missingOpen closing.text) closing.span
  | [] => p.refuse (.missingOpen closing.text) closing.span

/-- Leaves the scope and the layout of a bracket. -/
def leaveScope (p : Parser) : Parser :=
  { p with registry := p.registry.popScope, layout := p.layout.tail }

/-- Replaces a bracket by its tree. -/
def putBracket (p : Parser) (kind : BracketKind) (opener : Pending) (closing : Tag)
    (content : Option Tree) (sectioned : Bool) : Parsing Parser :=
  match Tree.ofBracket kind opener.tag closing content sectioned with
  | .ok tree => .ok { p with operand := some tree }
  | .error error => .error ⟨error, p.registry⟩

/-- Closes the innermost bracket, which has to be the partner of the closing one. If it is not, a bracket
further out that is the partner shows that the innermost one was left open. -/
def closeBracket (p : Parser) (rule : Rule) (tag : Tag) : Parsing Parser := do
  let p ← p.dropSeparators.completeSection
  let p ← p.reduceToOpener
  let (content, opener, p) ← p.popBracket tag
  if opener.rule.partner = some rule.symbol then
    let kind := opener.rule.bracketKind.getD .paren
    p.leaveScope.putBracket kind opener tag content opener.sectioned
  else
    let unclosed := p.pending.any fun other =>
      other.rule.isOpener && rule.partner == some other.rule.symbol
    let implicit := opener.rule.bracketKind == some .block || opener.rule.bracketKind == some .file
    if unclosed && !implicit && opener.rule.bracketKind.isSome then
      p.refuse (.missingClose opener.tag.text) opener.tag.span
    else p.refuse (.missingOpen tag.text) tag.span

/-- Opens a block of lines. -/
def openBlock (p : Parser) (width : Nat) (span : Span) : Parser :=
  { p with layout := .block width :: p.layout }.openBracket blockRule (p.tag "indentation" span)

/-- Closes the innermost bracket, which has to be a block. -/
def closeBlock (p : Parser) (span : Span) : Parsing Parser := do
  let p ← p.dropSeparators.reduceToOpener
  let tag := p.tag "dedent" span
  let (content, opener, p) ← p.popBracket tag
  if opener.rule.bracketKind = some .block then
    p.leaveScope.putBracket .block opener tag content false
  else p.refuse (.missingClose opener.tag.text) opener.tag.span

/-- Closes the blocks that a line break or the end of the file ends. `layout` is the layout of the
parser; its last entry belongs to the file and stays. -/
def closeBlocks (ends : Nat → Bool) (span : Span) (p : Parser) : List Layout → Parsing Parser
  | .block width :: outer :: rest =>
    if ends width then do closeBlocks ends span (← p.closeBlock span) (outer :: rest)
    else .ok p
  | _ => .ok p

/-- The end of the file. -/
def finish (p : Parser) (span : Span) : Parsing (Tree × Parser) := do
  let p ← closeBlocks (fun _ => true) span p p.layout
  let p ← p.dropSeparators.reduceToOpener
  let tag := p.tag "end of file" span
  let (content, opener, p) ← p.popBracket tag
  if opener.rule.bracketKind = some .file then
    match Tree.ofBracket .file opener.tag tag content false with
    | .ok tree => .ok (tree, p)
    | .error error => .error ⟨error, p.registry⟩
  else p.refuse (.missingClose opener.tag.text) opener.tag.span

end MixfixLambda.Parser
