import Stencil.Text

/-!
# Lines

A line ends at a line feed, and a carriage return directly before the line feed
belongs to the end of the line. Text after the last line feed is a line too; if
there is none, nothing follows. A carriage return anywhere else is part of its
line.

## Main definitions

* `Text.lines`: The lines of a text.
* `Text.cut?`: A text cut at the first occurrence of a marker.
* `Text.upTo`: What precedes the first occurrence of a marker.
-/

namespace Stencil

namespace Text

/-- A line given back to front, without a carriage return at its end. -/
def endLine : Text → Text
  | '\r' :: rest => rest.reverse
  | line => line.reverse

/-- The lines of a text, with the line in hand back to front. -/
def linesFrom : Text → Text → List Text
  | line, [] => if line.isEmpty then [] else [line.reverse]
  | line, c :: rest =>
    if c = '\n' then endLine line :: linesFrom [] rest
    else linesFrom (c :: line) rest

/-- The lines of a text, without their ends. -/
def lines (t : Text) : List Text := linesFrom [] t

/-- Cut a text at the first occurrence of a marker: what stands before it and
    what follows it, if it occurs. -/
def cut? (marker : Text) : Text → Option (Text × Text)
  | [] => if marker.isEmpty then some ([], []) else none
  | c :: rest =>
    if marker.isPrefixOf (c :: rest) then some ([], (c :: rest).drop marker.length)
    else (cut? marker rest).map fun (before, after) => (c :: before, after)

/-- A text up to the first occurrence of a marker, or all of it if the marker
    does not occur. -/
def upTo (marker t : Text) : Text := ((cut? marker t).map Prod.fst).getD t

end Text

end Stencil
