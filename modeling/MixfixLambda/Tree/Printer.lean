import MixfixLambda.Text.Blank
import MixfixLambda.Text.Escape
import MixfixLambda.Tree.Basic

/-!
# Printed trees

A tree is printed as a source: every construct in parentheses, so that no precedence matters when the
text is read again.
-/
namespace MixfixLambda

/-- A character inside quotes. Line breaks, tabs, the zero character, the backslash and the quote
itself are escaped by name, other controls of one byte by number. -/
def sourceChar (quote c : Char) : String :=
  if c = '\n' then "\\n"
  else if c = '\t' then "\\t"
  else if c = '\r' then "\\r"
  else if c = '\x00' then "\\0"
  else if c = '\\' then "\\\\"
  else if c = quote then "\\" ++ c.toString
  else if Text.isControl c && c.toNat < 0x100 then "\\x" ++ Text.hexByte (UInt8.ofNat c.toNat)
  else c.toString

/-- A byte inside double quotes. -/
def sourceByte (b : UInt8) : String :=
  if b < 0x80 then sourceChar '\x22' (Char.ofNat b.toNat) else "\\x" ++ Text.hexByte b

def Declaration.render (d : Declaration) : String :=
  d.kind.keyword
    ++ (d.precedence.map fun n => " " ++ toString n).getD ""
    ++ String.join (d.symbols.map fun s => " " ++ s.text)
    ++ (d.prior.map fun p => " after " ++ p.text).getD ""

/-- The parts of a chain, each followed by its operand as long as there are operands. -/
def interleave : List String → List String → List String
  | [], _ => []
  | part :: parts, [] => part :: interleave parts []
  | part :: parts, operand :: operands => part :: operand :: interleave parts operands

namespace Tree

mutual

def render : Tree → String
  | .int value _ => toString value
  | .str bytes _ => "\"" ++ String.join (bytes.map sourceByte) ++ "\""
  | .char value _ => "'" ++ sourceChar '\x27' value ++ "'"
  | .name tag => tag.asValue
  | .placeholder _ => ""
  | .apply function argument _ => "(" ++ function.render ++ " " ++ argument.render ++ ")"
  | .infixOp operator left right =>
    match left, right with
    | .placeholder _, _ => "(" ++ operator.text ++ " " ++ right.render ++ ")"
    | _, .placeholder _ => "(" ++ left.render ++ " " ++ operator.text ++ ")"
    | _, _ => "(" ++ left.render ++ " " ++ operator.text ++ " " ++ right.render ++ ")"
  | .prefixOp operator operand => "(" ++ operator.text ++ " " ++ operand.render ++ ")"
  | .postfixOp operator operand => "(" ++ operand.render ++ " " ++ operator.text ++ ")"
  | .mixfix parts operands =>
    let texts := parts.map Tag.text
    let shown := renderEach operands
    let words :=
      match shown with
      | head :: rest =>
        if shown.length > texts.length then head :: interleave texts rest
        else interleave texts shown
      | [] => interleave texts []
    "(" ++ " ".intercalate words ++ ")"
  | .bracket opening closing content =>
    match content with
    | .unit _ => opening.text ++ " " ++ closing.text
    | _ => opening.text ++ " " ++ content.render ++ " " ++ closing.text
  | .define tag pattern body | .lambda tag pattern body =>
    "(" ++ pattern.render ++ " " ++ tag.text ++ " " ++ body.render ++ ")"
  | .asPattern tag bound pattern => "(" ++ bound.render ++ tag.text ++ pattern.render ++ ")"
  | .sequence items _ => "(" ++ "; ".intercalate (renderEach items) ++ ")"
  | .comma items _ => ", ".intercalate (renderEach items)
  | .unit _ => "()"
  | .tuple items _ => "(" ++ ", ".intercalate (renderEach items) ++ ")"
  | .list items _ => "[" ++ ", ".intercalate (renderEach items) ++ "]"
  | .data alternatives _ => "\x7b" ++ ", ".intercalate (renderEach alternatives) ++ "\x7d"
  | .sectionOf body _ => body.render
  | .declaration d => d.render

def renderEach : List Tree → List String
  | [] => []
  | t :: rest => t.render :: renderEach rest

end

theorem renderEach_eq_map (ts : List Tree) : renderEach ts = ts.map render := by
  induction ts with
  | nil => rfl
  | cons t ts ih => simp [renderEach, ih]

end Tree

end MixfixLambda
