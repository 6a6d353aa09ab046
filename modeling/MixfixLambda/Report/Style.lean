/-!
# Styled text

A report is a list of pieces: texts, and switches to a style. Plain output drops the switches; a terminal
gets them as escape sequences. Every switch starts from the plain style, so that styles never add up.
-/
namespace MixfixLambda

inductive Colour where
  | red | green | yellow | blue | magenta | cyan
  deriving DecidableEq, Repr

/-- The number of a colour among the eight of a terminal. -/
def Colour.index : Colour → Nat
  | .red => 1
  | .green => 2
  | .yellow => 3
  | .blue => 4
  | .magenta => 5
  | .cyan => 6

structure Style where
  bold : Bool
  /-- The bright variant of the colour. -/
  bright : Bool
  colour : Option Colour
  deriving DecidableEq, Repr

namespace Style

def plain : Style :=
  ⟨false, false, none⟩

def inBold : Style :=
  ⟨true, false, none⟩

def inColour (colour : Colour) : Style :=
  ⟨false, false, some colour⟩

/-- An escape sequence with the given parameters. -/
def sequence (parameters : String) : String :=
  "\x1b[" ++ parameters ++ "m"

/-- What a terminal is sent to switch to a style, whichever it shows at that time. -/
def switch (s : Style) : String :=
  sequence "0" ++ (if s.bold then sequence "1" else "")
    ++ match s.colour with
      | none => ""
      | some colour =>
        sequence (if s.bright then "38;5;" ++ toString (8 + colour.index)
          else toString (30 + colour.index))

end Style

inductive Piece where
  | text (text : String)
  | style (style : Style)
  deriving DecidableEq, Repr

abbrev StyledText := List Piece

namespace StyledText

/-- A text in a style; what follows is plain. -/
def inStyle (style : Style) (text : String) : StyledText :=
  [.style style, .text text, .style .plain]

/-- The text alone. -/
def plain (t : StyledText) : String :=
  String.join (t.map fun
    | .text text => text
    | .style _ => "")

/-- The text with the sequences that switch styles. -/
def coloured (t : StyledText) : String :=
  String.join (t.map fun
    | .text text => text
    | .style style => style.switch)

def render (t : StyledText) (colour : Bool) : String :=
  if colour then t.coloured else t.plain

/-- Texts in a row, each with a style or without one. The style is switched only where it changes. -/
def runs : Option Style → List (Option Style × String) → StyledText
  | none, [] => []
  | some _, [] => [.style .plain]
  | current, (style, text) :: rest =>
    (if style = current then [] else [.style (style.getD .plain)]) ++ .text text :: runs style rest

end StyledText

end MixfixLambda
