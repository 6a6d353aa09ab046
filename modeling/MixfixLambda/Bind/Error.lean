import MixfixLambda.Parse.Error

/-!
# Binding errors and warnings

Why a tree has no meaning, what looks like a mistake, and the words for both.
-/
namespace MixfixLambda

inductive BindCause where
  /-- A name that is no local, no builtin and no earlier global. -/
  | undefinedSymbol (name : String)
  /-- A second definition; `first` is the place of the other one, unless that is a builtin. -/
  | redefinition (name : String) (first : Option Span)
  | invalidPattern
  | invalidLeftHandSide
  /-- A name that only ever binds. -/
  | reservedName (name : String)
  | misplacedData
  /-- A block that ends in a definition, or a parameter list without `->`. -/
  | missingBody
  | nothingToRun
  deriving DecidableEq, Repr

structure BindError where
  cause : BindCause
  span : Span
  deriving DecidableEq, Repr

namespace BindCause

def message : BindCause → String
  | .undefinedSymbol name => "undefined symbol " ++ quoted name
  | .redefinition name _ => quoted name ++ " is already defined"
  | .invalidPattern => "invalid pattern"
  | .invalidLeftHandSide => "invalid left-hand side of a definition"
  | .reservedName name => quoted name ++ " is reserved"
  | .misplacedData => "data literal outside of a type definition"
  | .missingBody => "missing body"
  | .nothingToRun => "nothing to run"

def explanation : BindCause → Explanation
  | .undefinedSymbol name => ⟨"Undefined symbol", [quoted name ++ " is not defined here."]⟩
  | .redefinition name (some _) =>
    ⟨"Redefinition", [quoted name ++ " was defined multiple times."]⟩
  | .redefinition name none =>
    ⟨"Redefinition", [quoted name ++ " is a builtin and cannot be redefined."]⟩
  | .invalidPattern =>
    ⟨"Invalid pattern", ["Parameters are names, `_`, `()`, tuples or `name@pattern`."]⟩
  | .invalidLeftHandSide =>
    ⟨"Invalid definition",
      ["Only names, operator applications and (locally) tuples can be defined."]⟩
  | .reservedName name =>
    ⟨"Reserved name", [quoted name ++ " can only be used as a pattern."]⟩
  | .misplacedData =>
    ⟨"Misplaced data literal",
      ["`\x7b..\x7d` may only be the body of a top-level type definition."]⟩
  | .missingBody => ⟨"Missing body", ["A block must end in an expression."]⟩
  | .nothingToRun =>
    ⟨"Nothing to run", ["The module has no expression and does not define `main`."]⟩

end BindCause

/-- What a warning is about. -/
inductive WarningKind where
  | unusedBinding | shadowedPrelude
  deriving DecidableEq, Repr

structure BindWarning where
  kind : WarningKind
  name : String
  span : Span
  deriving DecidableEq, Repr

end MixfixLambda
