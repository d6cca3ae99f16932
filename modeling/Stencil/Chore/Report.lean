/-!
# Report Lines

What a chore prints. A line goes to the output or to the error channel, in one
style from its first character to its last; the line end is not part of it.
How long something took is known only when the line is printed, so a line holds
a gap in its place.

Text that comes from a tool may reset the style in the middle of a line. The
style of the line is then taken up again behind each reset.

## Main definitions

* `Style`: Weight and colour of a line.
* `Line`: A line of a report.
* `Line.render`: Its text, with the gaps filled.
-/

namespace Stencil

namespace Chore

inductive Colour
  | red
  | green
  | yellow
  | cyan
  deriving DecidableEq, Repr

namespace Colour

/-- The terminal's number for a colour. -/
def code : Colour → Nat
  | red => 31
  | green => 32
  | yellow => 33
  | cyan => 36

end Colour

/-- How a line looks. -/
structure Style where
  bold : Bool
  dimmed : Bool
  colour : Option Colour
  deriving DecidableEq, Repr

namespace Style

def plain : Style := ⟨false, false, none⟩

def coloured (colour : Colour) : Style := ⟨false, false, some colour⟩

def strong (colour : Colour) : Style := ⟨true, false, some colour⟩

def faint : Style := ⟨false, true, none⟩

/-- The terminal's numbers for a style, weight before colour. -/
def codes (style : Style) : List Nat :=
  (if style.bold then [1] else []) ++ (if style.dimmed then [2] else []) ++
    (style.colour.map Colour.code).toList

/-- What ends every style. -/
def reset : String := "\x1b[0m"

/-- What starts a style. -/
def opener (style : Style) : String :=
  "\x1b[" ++ String.intercalate ";" (style.codes.map toString) ++ "m"

def apply (style : Style) (text : String) : String :=
  if style.codes.isEmpty then text
  else style.opener ++ text.replace reset (reset ++ style.opener) ++ reset

end Style

inductive Channel
  | output
  | error
  deriving DecidableEq, Repr

/-- A part of a line. -/
inductive Fragment
  | text (s : String)
  /-- A gap for the time taken, in seconds. -/
  | elapsed
  deriving DecidableEq, Repr

/-- A line of a report. -/
structure Line where
  channel : Channel
  style : Style
  fragments : List Fragment
  deriving DecidableEq, Repr

namespace Line

/-- A line of known text. -/
def say (channel : Channel) (style : Style) (text : String) : Line :=
  ⟨channel, style, [.text text]⟩

def blank (channel : Channel) : Line := say channel .plain ""

/-- A line that ends with the time taken, between two known texts. -/
def timed (style : Style) (before after : String) : Line :=
  ⟨.output, style, [.text before, .elapsed, .text after]⟩

/-- The text of a line with the line end, the gaps filled with `elapsed`, in
    style or without. -/
def render (styled : Bool) (elapsed : String) (line : Line) : String :=
  let text := String.join (line.fragments.map fun
    | .text s => s
    | .elapsed => elapsed)
  (if styled then line.style.apply text else text) ++ "\n"

end Line

end Chore

end Stencil
