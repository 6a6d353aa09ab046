import MixfixLambda.Bind.Pattern
import MixfixLambda.Tree.Mentions

/-!
# Binding expressions

`Tree.bind` resolves the names of a tree and spells its constructs out as a term. Locals are looked up
first, then builtins, then globals. The binder keeps the locals in scope with a mark on those that are
used, and the warnings so far; both outlive an error.
-/
namespace MixfixLambda

/-- A top-level definition. -/
structure Global where
  tag : Tag
  term : Term
  deriving Repr, Inhabited

/-- A variable in scope. -/
structure Local where
  tag : Tag
  used : Bool
  deriving Repr, Inhabited

structure Binder where
  globals : Array Global
  /-- The index of the newest global of each name. -/
  names : List (String × Nat)
  /-- The variables in scope, innermost first. -/
  locals : List Local
  /-- The warnings so far, newest first. -/
  warnings : List BindWarning
  deriving Repr, Inhabited

/-- Work on a binder that may fail; what it changed before it failed stays changed. -/
abbrev BindM := ExceptT BindError (StateM Binder)

namespace BindM

def refuse (cause : BindCause) (span : Span) : BindM α :=
  throw ⟨cause, span⟩

def warn (kind : WarningKind) (name : String) (span : Span) : BindM Unit :=
  modify fun b => { b with warnings := ⟨kind, name, span⟩ :: b.warnings }

/-- Works with more variables in scope, the first one outermost. They go out of scope again even if the
work fails. -/
def withLocals (tags : List Tag) (work : BindM α) : BindM α := fun b =>
  let inner := { b with locals := tags.reverse.map (⟨·, false⟩) ++ b.locals }
  match work inner with
  | (result, after) => (result, { after with locals := after.locals.drop tags.length })

/-- Whether the innermost variable in scope has been used. -/
def innermostUsed : BindM Bool := do
  return ((← get).locals.head?).any (·.used)

end BindM

namespace Binder

open BindM

def empty : Binder :=
  ⟨#[], [], [], []⟩

/-- The newest global of a name. -/
def indexOf? (b : Binder) (name : String) : Option Nat :=
  (b.names.find? (·.1 == name)).map (·.2)

/-- The depth of the innermost local of a name. -/
def depthOf? (locals : List Local) (name : String) : Option Nat :=
  locals.findIdx? (·.tag.text == name)

/-- The term that a name stands for. -/
def resolve (tag : Tag) : BindM Term := do
  if tag.text == "_" then refuse (.reservedName tag.text) tag.span
  let b ← get
  match depthOf? b.locals tag.text with
  | some depth =>
    set { b with locals := b.locals.modify depth fun l => { l with used := true } }
    return .var depth tag
  | none =>
    match Builtin.ofName? tag.text with
    | some operation => return .builtin operation tag
    | none =>
      match b.indexOf? tag.text with
      | some index => return .global index tag
      | none => refuse (.undefinedSymbol tag.text) tag.span

end Binder

/-- One tag for several lexemes. -/
def joinedTag (text : String) (parts : List Tag) : Tag :=
  ⟨text, Span.mergeAll (parts.map Tag.span), (parts.head?.map Tag.origin).getD .synthetic⟩

def mixfixTag (parts : List Tag) : Tag :=
  joinedTag (mixfixName parts) parts

def bracketTag (opening closing : Tag) : Tag :=
  joinedTag (bracketName opening closing) [opening, closing]

/-- The name of the operand that a section leaves out. -/
def sectionName : String :=
  " section"

/-- The name that a left-hand side defines, and its parameters. -/
def Tree.definitionHead? : Tree → Option (Tag × List Tree)
  | .name tag => some (tag, [])
  | .apply function argument _ =>
    (definitionHead? function).map fun (tag, parameters) => (tag, parameters ++ [argument])
  | .infixOp operator left right => some (operator, [left, right])
  | .prefixOp operator operand => if operator.text == "\\" then none else some (operator, [operand])
  | .postfixOp operator operand => some (operator, [operand])
  | .mixfix parts operands => some (mixfixTag parts, operands)
  | .bracket opening closing content => some (bracketTag opening closing, [content])
  | _ => none

/-- The first name that is bound twice, with both places. Hidden names and `_` may be bound often. -/
def repeatedName? (seen : List (String × Span)) : List Tag → Option (String × Span × Span)
  | [] => none
  | tag :: rest =>
    if tag.origin == .synthetic || tag.text == "_" then repeatedName? seen rest
    else
      match seen.find? (·.1 == tag.text) with
      | some (_, first) => some (tag.text, first, tag.span)
      | none => repeatedName? ((tag.text, tag.span) :: seen) rest

open BindM Binder

/-- Refuses a name that is bound twice, counting those that are bound already, and adds the new ones. -/
def distinctNames (seen : List (String × Span)) (tags : List Tag) : BindM (List (String × Span)) :=
  match repeatedName? seen tags with
  | some (name, first, second) => refuse (.redefinition name (some first)) second
  | none =>
    let named := tags.filter fun tag => !(tag.origin == .synthetic || tag.text == "_")
    return (named.map fun tag => (tag.text, tag.span)).reverse ++ seen

/-- A function of the given parameters; `body` binds what it returns. -/
def bindFunction (parameters : List Tree) (body : BindM Term) : BindM Term := do
  let patterns ← ofExcept (Pattern.ofTrees parameters)
  let locals := Pattern.localsAll patterns
  let _ ← distinctNames [] locals
  return Pattern.abstractAll (← withLocals locals body) patterns

/-- The value of a definition. If the defined name occurs in it, it is a fixed point over that name. -/
def bindDefinition (tag : Tag) (parameters : List Tree) (recursive : Bool) (body : BindM Term) :
    BindM Term :=
  if recursive then do
    let function ← withLocals [tag] (bindFunction parameters body)
    return .app Encoding.fix (.lam tag function)
  else bindFunction parameters body

/-- The parameters of an abstraction. -/
def Tree.parameters (pattern : Tree) : List Tree :=
  let (head, arguments) := pattern.spine
  head :: arguments

def Tree.isDeclaration : Tree → Bool
  | .declaration _ => true
  | _ => false

def Tree.isData : Tree → Bool
  | .data .. => true
  | _ => false

/-- A statement `name = value` in front of the rest of its block: `(\name -> rest) value`. A name that the
rest does not use is warned about, unless it starts with `_`. -/
def bindNamed (tag : Tag) (value : Term) (rest : BindM Term) : BindM Term := do
  let (rest, used) ← withLocals [tag] do
    let rest ← rest
    return (rest, ← innermostUsed)
  if !used && tag.text.toList.head? != some '_' then warn .unusedBinding tag.text tag.span
  return .app (.lam tag rest) value

/-- The pattern on the left of a definition that defines no single name. -/
def destructuring (lhs : Tree) : BindM Pattern :=
  match lhs with
  | .tuple .. | .asPattern .. => ofExcept (Pattern.ofTree lhs)
  | _ => refuse .invalidLeftHandSide lhs.span

/-- A statement `pattern = value` in front of the rest of its block. -/
def bindDestructured (pattern : Pattern) (value : Term) (rest : BindM Term) : BindM Term := do
  return .app (pattern.abstract (← withLocals pattern.locals rest)) value

namespace Tree

mutual

/-- The term that an expression stands for. An operator is resolved before its operands, which are bound
from left to right. -/
def bind : Tree → BindM Term
  | .int value _ => return .int value
  | .char value _ => return .int value.toNat
  | .str bytes _ => return Encoding.string bytes
  | .name tag => resolve tag
  | .placeholder span => resolve ⟨sectionName, span, .synthetic⟩
  | .apply function argument _ => do
    let function ← bind function
    return .app function (← bind argument)
  | .infixOp operator left right => do
    let head ← resolve operator
    let left ← bind left
    return .applyAll head [left, ← bind right]
  | t@(.prefixOp operator operand) =>
    if operator.text == "\\" then refuse .missingBody t.span
    else do
      let head ← resolve operator
      return .app head (← bind operand)
  | .postfixOp operator operand => do
    let head ← resolve operator
    return .app head (← bind operand)
  | .mixfix parts operands => do
    let head ← resolve (mixfixTag parts)
    return .applyAll head (← bindEach operands)
  | .bracket opening closing content => do
    let head ← resolve (bracketTag opening closing)
    return .app head (← bind content)
  | .tuple items _ | .comma items _ =>
    return .applyAll (Encoding.tuple items.length) (← bindEach items)
  | .list items _ => return Encoding.list (← bindEach items)
  | .unit _ => return Encoding.identity
  | .lambda _ pattern body => bindFunction pattern.parameters (bind body)
  | .sectionOf body _ => do
    let tag := Tag.synthetic sectionName
    return .lam tag (← withLocals [tag] (bind body))
  | .sequence items span => bindBlock [] span items
  | .data _ span => refuse .misplacedData span
  | t@(.asPattern ..) => refuse .invalidPattern t.span
  | t@(.define ..) => refuse .missingBody t.span
  | t@(.declaration _) => refuse .missingBody t.span

/-- The terms of several expressions, from left to right. -/
def bindEach : List Tree → BindM (List Term)
  | [] => return []
  | t :: rest => do
    let term ← bind t
    return term :: (← bindEach rest)

/-- The statements of a block. Definitions hold for the statements behind them, other statements are
applied to what follows, and the last one is the value of the block. `defined` are the names that the
block has defined, and `span` is the place of the block. -/
def bindBlock (defined : List (String × Span)) (span : Span) : List Tree → BindM Term
  | [] => refuse .missingBody span
  | .declaration _ :: rest => bindBlock defined span rest
  | .define tag lhs body :: rest =>
    if rest.all isDeclaration then refuse .missingBody (Tree.define tag lhs body).span
    else if body.isData then refuse .misplacedData body.span
    else
      match lhs.definitionHead?.filter (·.1.text != "_") with
      | some (tag, parameters) => do
        let defined ← distinctNames defined [tag]
        let value ← bindDefinition tag parameters (body.mentions tag.text) (bind body)
        bindNamed tag value (bindBlock defined span rest)
      | none => do
        let pattern ← destructuring lhs
        let defined ← distinctNames defined pattern.locals
        let value ← bind body
        bindDestructured pattern value (bindBlock defined span rest)
  | t :: rest =>
    if rest.all isDeclaration then bind t
    else do
      let action ← bind t
      return .app action (← bindBlock defined span rest)

end

end Tree

end MixfixLambda
