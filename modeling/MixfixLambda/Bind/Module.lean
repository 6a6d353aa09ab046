import MixfixLambda.Bind.Binder
import MixfixLambda.Bind.Prelude
import MixfixLambda.Parse.Parser

/-!
# Binding modules

A module adds its definitions to the global table, in order, on top of those of the prelude. What is run
is its expressions, or else its `main`.
-/
namespace MixfixLambda

/-- What a module runs. -/
inductive Entry where
  /-- The expressions of the module. Their value is printed. -/
  | expression (term : Term)
  /-- `main` applied to the input stream. Its value is not printed. -/
  | main (term : Term)
  deriving Repr, Inhabited

def Entry.term : Entry → Term
  | .expression term | .main term => term

/-- A bound program: the globals of the prelude, then those of the module, and what to run. -/
structure Module where
  globals : Array Global
  entry : Entry
  deriving Repr, Inhabited

namespace Binder

open BindM

/-- Refuses a name that is taken. A module may take a name of the prelude, with a warning. -/
def checkGlobalName (tag : Tag) : BindM Unit := do
  if (Builtin.ofName? tag.text).isSome then refuse (.redefinition tag.text none) tag.span
  let b ← get
  match (b.indexOf? tag.text).bind (b.globals[·]?) with
  | none => pure ()
  | some other =>
    if other.tag.origin == .prelude && tag.origin == .module then
      warn .shadowedPrelude tag.text tag.span
    else refuse (.redefinition tag.text (some other.tag.span)) tag.span

def addGlobal (tag : Tag) (term : Term) : BindM Unit :=
  modify fun b =>
    { b with
      globals := b.globals.push ⟨tag, term⟩
      names := (tag.text, b.globals.size) :: b.names }

/-- Adds a global under a name that is free. -/
def addChecked (tag : Tag) (term : Term) : BindM Unit := do
  checkGlobalName tag
  addGlobal tag term

/-- A definition at top level. -/
def defineGlobal (lhs body : Tree) : BindM Unit := do
  match lhs.definitionHead? with
  | none => refuse .invalidLeftHandSide lhs.span
  | some (tag, parameters) =>
    if tag.text == "_" then refuse .invalidLeftHandSide tag.span
    checkGlobalName tag
    addGlobal tag (← bindDefinition tag parameters (body.mentions tag.text) body.bind)

/-- The name and the number of fields of an alternative of a type. -/
def constructorOf (alternative : Tree) : BindM (Tag × Nat) :=
  match alternative.spine with
  | (.name tag, fields) =>
    if tag.text == "_" then refuse .invalidPattern alternative.span
    else return (tag, fields.length)
  | _ => refuse .invalidPattern alternative.span

/-- The name of the function that takes one alternative of a type apart. -/
def caseTag (constructor : Tag) : Tag :=
  { constructor with text := "case_" ++ constructor.text }

/-- `T params = {C1 fields.., C2 fields..}` defines `T`, every constructor, and a `case_` function for
every constructor. Parameters of the type only document its fields. -/
def defineType (lhs : Tree) (alternatives : List Tree) : BindM Unit := do
  match lhs.definitionHead? with
  | none => refuse .invalidLeftHandSide lhs.span
  | some (tag, _) =>
    let constructors ← alternatives.mapM constructorOf
    let arities := constructors.map (·.2)
    addChecked tag (Encoding.dispatcher arities.length)
    for ((tag, fields), index) in constructors.zipIdx do
      addChecked tag (Encoding.constructor fields arities.length index)
    for ((tag, _), index) in constructors.zipIdx do
      addChecked (caseTag tag) (Encoding.caseDispatcher arities index)

/-- An item at top level; an expression gives its term. -/
def bindItem : Tree → BindM (Option Term)
  | .declaration _ => return none
  | .define _ lhs body => do
    match body with
    | .data alternatives _ => defineType lhs alternatives
    | _ => defineGlobal lhs body
    return none
  | t => return some (← t.bind)

/-- The items of a whole source. -/
def topItems : Tree → List Tree
  | .sequence items _ => items
  | t => [t]

/-- The value of several expressions in a row: `e1 (e2 e3)`. -/
def chainExpressions : List Term → Option Term
  | [] => none
  | e :: rest =>
    match chainExpressions rest with
    | none => some e
    | some value => some (.app e value)

/-- Binds the items of a parsed source: definitions become globals, expressions are chained. -/
def bindItems (program : Tree) : BindM (Option Term) := do
  let terms ← (topItems program).mapM bindItem
  return chainExpressions (terms.filterMap id)

/-- What to run: the expression if there is one, else `main`. `span` is the end of the source. -/
def finish (expression : Option Term) (span : Span) : BindM Entry := do
  match expression with
  | some term => return .expression term
  | none =>
    let b ← get
    match (b.indexOf? "main").bind fun index => (b.globals[index]?).map (index, ·.tag) with
    | none => refuse .nothingToRun span
    | some (index, tag) =>
      let input ← resolve (.synthetic "input_from")
      return .main (.app (.global index tag) (.app input (.int 0)))

end Binder

/-- What is wrong with a source before it runs. -/
inductive SourceError where
  | parse (error : ParseError)
  | bind (error : BindError)
  deriving Repr

/-- The binder that has bound a source on its own. -/
def Binder.ofSource (parsed : Except ParseError Tree) : Except SourceError Binder :=
  match parsed with
  | .error e => .error (.parse e)
  | .ok t =>
    match (Binder.bindItems t).run.run Binder.empty with
    | (.error e, _) => .error (.bind e)
    | (.ok _, b) => .ok b

namespace Prelude

/-- The prelude as a tree. -/
def tree : Except ParseError Tree :=
  parse text .prelude

/-- The binder that has bound the prelude. -/
def binder : Except SourceError Binder :=
  Binder.ofSource tree

end Prelude

/-- What came of binding a source. -/
structure Bound where
  /-- Whether the error, if there is one, is in the prelude. -/
  inPrelude : Bool
  result : Except SourceError Module
  /-- In the order in which they arose. -/
  warnings : List BindWarning

/-- Parses a source and binds it on top of the prelude's binder. -/
def bindOn (prelude : Except SourceError Binder) (text : String) : Bound :=
  match prelude with
  | .error e => ⟨true, .error e, []⟩
  | .ok b =>
    match parse text .module with
    | .error e => ⟨false, .error (.parse e), []⟩
    | .ok t =>
      let work := do Binder.finish (← Binder.bindItems t) (Span.point text.utf8ByteSize)
      match work.run.run b with
      | (.error e, b) => ⟨false, .error (.bind e), b.warnings.reverse⟩
      | (.ok entry, b) => ⟨false, .ok ⟨b.globals, entry⟩, b.warnings.reverse⟩

/-- Parses a source and binds it on top of the prelude. -/
def bindModule (text : String) : Bound :=
  bindOn Prelude.binder text

end MixfixLambda
