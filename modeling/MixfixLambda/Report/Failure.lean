import MixfixLambda.Bind.Module
import MixfixLambda.Machine.Fault
import MixfixLambda.Report.Diagnostic

/-!
# Failures

What ends the work on a program early, with the diagnostic and the exit status for it.
-/
namespace MixfixLambda

inductive Failure where
  | parse (file : SourceFile) (error : ParseError)
  | bind (file : SourceFile) (error : BindError)
  | run (file : SourceFile) (fault : Fault)
  /-- The source could not be read, or a result not be written. -/
  | stream (error : StreamError)
  deriving Repr

namespace Failure

/-- What is wrong with a source. -/
def ofSource (file : SourceFile) : SourceError → Failure
  | .parse error => .parse file error
  | .bind error => .bind file error

def message : Failure → String
  | .parse _ _ => "failed to parse source code"
  | .bind _ _ => "failed to bind names"
  | .run _ fault => "program faulted: " ++ fault.cause.message
  | .stream _ => "IO operation failed"

/-- One for what is wrong with the program, two for what is wrong around it, and three for a state of the
machine that no program should reach. -/
def exitStatus : Failure → Nat
  | .parse _ _ | .bind _ _ => 1
  | .run _ fault =>
    match fault.cause with
    | .internal _ => 3
    | _ => 1
  | .stream _ => 2

end Failure

/-- The name behind the binding error of a second definition, and the place of the first one. -/
def BindCause.labels (cause : BindCause) : String × List Label :=
  match cause with
  | .redefinition _ (some first) => ("Redefined here", [⟨first, some "First defined here"⟩])
  | cause => (cause.message, [])

/-- The lines that name the references that led to a fault. -/
def Fault.backtraceLines (fault : Fault) : List String :=
  if fault.backtrace.isEmpty then []
  else "Backtrace, newest first:" :: fault.backtrace.map ("    " ++ ·)

def Failure.diagnostic : Failure → Diagnostic
  | .parse file error =>
    let explanation := error.cause.explanation
    { title := "Syntax error"
      text := "\n".intercalate explanation.notes
      level := .error
      location := some ⟨file, ⟨error.span, some explanation.headline⟩, []⟩ }
  | .bind file error =>
    let explanation := error.cause.explanation
    let (label, others) := error.cause.labels
    { title := explanation.headline
      text := "\n".intercalate explanation.notes
      level := .error
      location := some ⟨file, ⟨error.span, some label⟩, others⟩ }
  | .run file fault =>
    let explanation := fault.cause.explanation
    { title := explanation.headline
      text := "\n".intercalate (explanation.notes ++ fault.backtraceLines)
      level := .error
      location := fault.span.map fun span => ⟨file, ⟨span, some fault.cause.message⟩, []⟩ }
  | .stream error =>
    { title := "Standard IO error", text := error.message, level := .error, location := none }

namespace BindWarning

def title (w : BindWarning) : String :=
  match w.kind with
  | .unusedBinding => "Unused binding"
  | .shadowedPrelude => "Shadowed prelude definition"

def label (w : BindWarning) : String :=
  match w.kind with
  | .unusedBinding => quoted w.name ++ " is never used"
  | .shadowedPrelude => "This replaces the prelude's " ++ quoted w.name

def diagnostic (file : SourceFile) (w : BindWarning) : Diagnostic :=
  { title := w.title
    text := ""
    level := .warning
    location := some ⟨file, ⟨w.span, some w.label⟩, []⟩ }

end BindWarning

end MixfixLambda
