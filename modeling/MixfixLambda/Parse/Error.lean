import MixfixLambda.Token.Error

/-!
# Parse errors

Why a sequence of tokens is no tree, and the words for it.
-/
namespace MixfixLambda

/-- What is wrong with a syntax declaration. -/
inductive DeclarationFault where
  | noPrecedence | precedenceOutOfRange | notASymbol | noSingleSymbolAfter | noSymbol | noPair
  deriving DecidableEq, Repr

def DeclarationFault.message : DeclarationFault → String
  | .noPrecedence => "needs a precedence"
  | .precedenceOutOfRange => "needs a precedence from 0 to 99"
  | .notASymbol => "expects symbols"
  | .noSingleSymbolAfter => "expects exactly one symbol after `after`"
  | .noSymbol => "declares no symbol"
  | .noPair => "needs an opening and a closing symbol"

inductive ParseCause where
  | missingOperand (operator : String)
  | missingOpen (closing : String)
  | missingClose (opening : String)
  | nonAssociative (left right : String)
  | priorMismatch (operator prior : String)
  | syntaxRedefinition (symbol : String)
  | invalidDeclaration (keyword : String) (fault : DeclarationFault)
  | strayComma
  | oddIndentation (width : Nat)
  | inconsistentIndentation (width : Nat)
  | lexical (cause : LexicalCause)
  deriving DecidableEq, Repr

structure ParseError where
  cause : ParseCause
  span : Span
  deriving DecidableEq, Repr

/-- A text in the quotes of a message. -/
def quoted (text : String) : String :=
  "`" ++ text ++ "`"

namespace ParseCause

def message : ParseCause → String
  | .missingOperand operator => "missing operand for " ++ quoted operator
  | .missingOpen closing => "missing open for " ++ quoted closing
  | .missingClose opening => "missing close for " ++ quoted opening
  | .nonAssociative left right =>
    quoted left ++ " and " ++ quoted right ++ " cannot be chained without brackets"
  | .priorMismatch operator prior => quoted operator ++ " must follow " ++ quoted prior
  | .syntaxRedefinition symbol => quoted symbol ++ " is already defined in this scope"
  | .invalidDeclaration keyword fault =>
    "invalid " ++ quoted keyword ++ " declaration: " ++ fault.message
  | .strayComma => "comma outside of brackets"
  | .oddIndentation width => "indentation of " ++ toString width ++ " is not an even step"
  | .inconsistentIndentation width =>
    "indentation of " ++ toString width ++ " matches no enclosing block"
  | .lexical cause => cause.message

def explanation : ParseCause → Explanation
  | .missingOperand operator =>
    ⟨"Missing operand", [quoted operator ++ " needs an operand here."]⟩
  | .missingOpen closing => ⟨"Missing open", ["Missing open for " ++ quoted closing ++ "."]⟩
  | .missingClose opening => ⟨"Missing close", ["Missing close for " ++ quoted opening ++ "."]⟩
  | .nonAssociative left right =>
    ⟨"Ambiguous chain",
      [quoted left ++ " and " ++ quoted right ++ " have the same precedence but do not associate.",
        "Add brackets to say which comes first."]⟩
  | .priorMismatch operator prior =>
    ⟨"Not expected this", [quoted operator ++ " is only valid after " ++ quoted prior ++ "."]⟩
  | .syntaxRedefinition symbol =>
    ⟨"Syntax redefinition", [quoted symbol ++ " already has a syntax rule in this scope."]⟩
  | .invalidDeclaration keyword fault =>
    ⟨"Invalid declaration", [quoted keyword ++ " declaration " ++ fault.message ++ "."]⟩
  | .strayComma => ⟨"Comma outside of brackets", ["Tuples and lists need surrounding brackets."]⟩
  | .oddIndentation width =>
    ⟨"Odd indentation",
      ["Blocks indent by an even number of spaces, this line has " ++ toString width ++ "."]⟩
  | .inconsistentIndentation width =>
    ⟨"Inconsistent indentation",
      ["No enclosing block is indented by " ++ toString width ++ " spaces."]⟩
  | .lexical cause => cause.explanation

end ParseCause

end MixfixLambda
