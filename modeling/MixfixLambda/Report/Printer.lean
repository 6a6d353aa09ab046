import MixfixLambda.Report.Excerpt.Printer

/-!
# Printed diagnostics

The title, then the excerpt of the source if there is a place, then the text.
-/
namespace MixfixLambda

def Level.name : Level → String
  | .error => "error"
  | .warning => "warning"

def Level.colour : Level → Colour
  | .error => .red
  | .warning => .yellow

namespace Location

/-- The path, and the line and column of the main label. -/
def place (l : Location) : String :=
  let offset := min l.label.span.start l.file.text.utf8ByteSize
  match SourceLine.at? (SourceLine.ofText l.file.text) offset with
  | none => l.file.path
  | some line =>
    l.file.path ++ ":" ++ toString line.number ++ ":" ++ toString (line.column offset)

def excerpt (l : Location) : Excerpt :=
  .ofLabels l.file.text ((.primary, l.label) :: l.others.map fun label => (.secondary, label))

end Location

namespace Diagnostic

/-- The title of a diagnostic with a place. -/
def placedTitle (d : Diagnostic) : StyledText :=
  [.style ⟨true, true, some d.level.colour⟩, .text d.level.name, .style .inBold,
    .text (": " ++ d.title), .style .plain, .text "\n"]

/-- The title of a diagnostic without a place, and an empty line. -/
def unplacedTitle (d : Diagnostic) : StyledText :=
  [.style ⟨true, false, some d.level.colour⟩, .text d.level.name, .style .inBold,
    .text (": " ++ d.title ++ "\n\n"), .style .plain]

def styled (d : Diagnostic) : StyledText :=
  (match d.location with
    | none => d.unplacedTitle
    | some location =>
      d.placedTitle ++ location.excerpt.print (.ofLevel d.level) location.place ++ [.text "\n"])
  ++ if d.text.isEmpty then [] else [.text (d.text ++ "\n")]

def render (d : Diagnostic) (colour : Bool) : String :=
  d.styled.render colour

/-- Diagnostics in a row have an empty line behind each of them. -/
def renderBlock (d : Diagnostic) (colour : Bool) : String :=
  d.render colour ++ "\n"

end Diagnostic

end MixfixLambda
