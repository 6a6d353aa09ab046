/-!
# Syntax rules

A rule says what a symbol does in the grammar: on which sides it takes operands, how tightly it holds
them, and what tree it makes. Symbols without a rule are plain operands.
-/
namespace MixfixLambda

/-- The six kinds of syntax declarations. -/
inductive DeclarationKind where
  | infixLeft | infixRight | infixNone | prefixOp | postfixOp | bracket
  deriving DecidableEq, Repr, Inhabited

namespace DeclarationKind

/-- The word that a declaration starts with. -/
def keyword : DeclarationKind → String
  | .infixLeft => "infixl"
  | .infixRight => "infixr"
  | .infixNone => "infix"
  | .prefixOp => "prefix"
  | .postfixOp => "postfix"
  | .bracket => "bracket"

def all : List DeclarationKind :=
  [.infixLeft, .infixRight, .infixNone, .prefixOp, .postfixOp, .bracket]

end DeclarationKind

/-- Where a symbol stands among its operands. -/
inductive Fixity where
  | infixOp | prefixOp | postfixOp | opening | closing
  deriving DecidableEq, Repr, Inhabited

/-- How operators of one precedence group. -/
inductive Assoc where
  | left | right | none
  deriving DecidableEq, Repr, Inhabited

/-- What the content of a pair of brackets becomes. -/
inductive BracketKind where
  | paren | square | brace
  /-- The lines of one indentation. -/
  | block
  /-- The whole source. -/
  | file
  /-- A pair that the source declares. -/
  | user
  deriving DecidableEq, Repr, Inhabited

/-- What tree an operator makes of its operands. -/
inductive Reduction where
  /-- The symbol is no operator. -/
  | operand
  | operator | apply | sequence | comma | define | lambda
  /-- The operator vanishes and leaves its operand. -/
  | erase
  | asPattern
  | declare (kind : DeclarationKind)
  | bracket (kind : BracketKind)
  deriving DecidableEq, Repr, Inhabited

/-- What a symbol does in the grammar. -/
structure Rule where
  symbol : String
  /-- How tightly the operand on the left is held. -/
  left : Nat
  /-- How tightly the operand on the right is held. -/
  right : Nat
  fixity : Fixity
  assoc : Assoc
  /-- The symbol only continues a chain in which this one is pending. -/
  prior : Option String
  reduction : Reduction
  /-- The other symbol of a pair of brackets. -/
  partner : Option String
  deriving DecidableEq, Repr, Inhabited

namespace Rule

/-- The greatest precedence that a declaration may give. -/
def maxPrecedence : Nat :=
  99

/-- The rule of symbols that have none. -/
def operand (symbol : String) : Rule :=
  ⟨symbol, 0, 0, .infixOp, .none, none, .operand, none⟩

def infixOp (symbol : String) (precedence : Nat) (assoc : Assoc) (reduction : Reduction) : Rule :=
  ⟨symbol, precedence, precedence, .infixOp, assoc, none, reduction, none⟩

def prefixOp (symbol : String) (precedence : Nat) (reduction : Reduction) : Rule :=
  { infixOp symbol precedence .right reduction with fixity := .prefixOp }

def postfixOp (symbol : String) (precedence : Nat) : Rule :=
  { infixOp symbol precedence .left .operator with fixity := .postfixOp }

/-- The same rule, as a continuation of a chain. -/
def after (r : Rule) (prior : String) : Rule :=
  { r with prior := some prior }

def opening (symbol partner : String) (kind : BracketKind) : Rule :=
  ⟨symbol, 0, 0, .opening, .none, none, .bracket kind, some partner⟩

def closing (symbol partner : String) (kind : BracketKind) : Rule :=
  ⟨symbol, 0, 0, .closing, .none, none, .bracket kind, some partner⟩

/-- The rule of juxtaposition. -/
def space : Rule :=
  infixOp " " 95 .left .apply

/-- The rule of a line break at the indentation of the current block. Deeper lines open a block and
shallower lines close blocks, so that one precedence serves for every indentation. -/
def newline : Rule :=
  infixOp "newline" 1 .right .sequence

def isOperand (r : Rule) : Bool :=
  r.reduction == .operand

def isOpener (r : Rule) : Bool :=
  r.fixity == .opening

def bracketKind (r : Rule) : Option BracketKind :=
  match r.reduction with
  | .bracket kind => some kind
  | _ => none

/-- Separators of statements, which may stand in front of a closing bracket. -/
def isSeparator (r : Rule) : Bool :=
  r.reduction == .sequence

/-- Whether an operand of this operator may be left out in parentheses. -/
def isSectionable (r : Rule) : Bool :=
  r.fixity == .infixOp && r.prior.isNone && r.reduction == .operator

end Rule

end MixfixLambda
