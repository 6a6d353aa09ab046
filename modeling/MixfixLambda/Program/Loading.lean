import MixfixLambda.Report.Failure
import MixfixLambda.Text.Utf8

/-!
# Programs

A program is a bound module together with the source that it was read from.
-/
namespace MixfixLambda

structure Program where
  file : SourceFile
  module : Module
  deriving Repr

/-- A source that is no UTF-8 cannot be read. -/
def StreamError.ofUtf8 : Text.Utf8Error → StreamError
  | .invalid => .invalidData
  | .truncated => .unexpectedEof

/-- The text of a source. -/
def readSource (bytes : List UInt8) : Except Failure String :=
  match Text.decodeUtf8 bytes with
  | .ok text => .ok text
  | .error error => .error (.stream (.ofUtf8 error))

/-- The source of the prelude. -/
def Prelude.file : SourceFile :=
  ⟨path, text⟩

/-- What came of loading a program. -/
structure Loaded where
  result : Except Failure Program
  warnings : List Diagnostic

namespace Program

/-- Binds the text of a source. -/
def ofFile (file : SourceFile) : Loaded :=
  let bound := bindModule file.text
  let warnings := bound.warnings.map (·.diagnostic file)
  match bound.result with
  | .ok module => ⟨.ok ⟨file, module⟩, warnings⟩
  | .error error =>
    ⟨.error (.ofSource (if bound.inPrelude then Prelude.file else file) error), warnings⟩

/-- Reads and binds the bytes of a source. -/
def ofBytes (path : String) (bytes : List UInt8) : Loaded :=
  match readSource bytes with
  | .ok text => ofFile ⟨path, text⟩
  | .error failure => ⟨.error failure, []⟩

end Program

end MixfixLambda
