import MixfixLambda.Cli.Report
import MixfixLambda.Parse.Parser
import MixfixLambda.Token.Stream
import MixfixLambda.Tree.Printer

/-!
# Line loops

Commands that answer every line of the input on its own, after a prompt, until the input ends or a line
says `.exit`. Empty lines are passed over.
-/
namespace MixfixLambda.Cli

/-- A kind of loop: what it asks with, and what it answers. -/
structure LineLoop where
  prompt : String
  answer : String → String

/-- A number, filled up with blanks on the left to a width. -/
def alignRight (width number : Nat) : String :=
  let shown := toString number
  "".pushn ' ' (width - shown.length) ++ shown

/-- A number, filled up with blanks on the right to a width. -/
def alignLeft (width number : Nat) : String :=
  let shown := toString number
  shown ++ "".pushn ' ' (width - shown.length)

/-- The kind of a token with what it carries. -/
def describeToken : Token → String
  | .name text => "Name(" ++ Text.quotedText text ++ ")"
  | .int value => "Int(" ++ toString value ++ ")"
  | .str bytes => "Str([" ++ ", ".intercalate (bytes.map fun b => toString b.toNat) ++ "])"
  | .char c => "Char(" ++ Text.quotedChar c ++ ")"
  | .operator text => "Operator(" ++ Text.quotedText text ++ ")"
  | .newline width => "Newline(" ++ toString width ++ ")"
  | .eof => "Eof"

/-- An error in a line: where it starts, what it is, and further lines. -/
def describeError (kind : String) (span : Span) (explanation : Explanation) : String :=
  String.join (("[at " ++ toString span.start ++ "] " ++ kind ++ " error: " ++ explanation.headline
    ++ "\n") :: explanation.notes.map fun note => "    " ++ note ++ "\n")

def describeLexeme : Except LexicalError Lexeme → String
  | .ok x =>
    alignRight 4 x.span.start ++ ".." ++ alignLeft 4 x.span.stop ++ " " ++ describeToken x.token ++ "\n"
  | .error error => describeError "Lexical" error.span error.cause.explanation

namespace LineLoop

/-- Lists the lexemes of a line. -/
def lexing : LineLoop :=
  ⟨"lex> ", fun line => String.join ((lexemes line).map describeLexeme)⟩

/-- Prints a line as it was understood. Declarations last for their line. -/
def parsing : LineLoop :=
  ⟨"parse> ", fun line =>
    match parse line .module with
    | .ok tree => tree.render ++ "\n"
    | .error error => describeError "Parse" error.span error.cause.explanation⟩

/-- A line without the line feeds and carriage returns at its end. -/
def trim (line : String) : String :=
  String.ofList (line.toList.reverse.dropWhile fun c => c = '\n' || c = '\r').reverse

variable {m : Type → Type} [Monad m]

/-- Answers one line after the other. `bytes` have been read before; the answer is the exit status. -/
@[specialize]
def runFrom (host : Host m) (loop : LineLoop) (bytes : List UInt8) : Nat → m Nat
  | 0 => return 0
  | rounds + 1 => do
    match ← host.writeText .output loop.prompt with
    | .error error => host.report (.stream error) true
    | .ok () =>
      match ← host.readLine bytes with
      | .error error => host.report (.stream error) true
      | .ok ([], _) => return 0
      | .ok (line, bytes) =>
        match Text.decodeUtf8 line with
        | .error _ => host.report (.stream .invalidData) true
        | .ok text =>
          let text := trim text
          if text.isEmpty then loop.runFrom host bytes rounds
          else if text == ".exit" then return 0
          else
            match ← host.writeText .output (loop.answer text) with
            | .error error => host.report (.stream error) true
            | .ok () => loop.runFrom host bytes rounds

def run (host : Host m) (loop : LineLoop) : m Nat :=
  loop.runFrom host [] unlimited

end LineLoop

end MixfixLambda.Cli
