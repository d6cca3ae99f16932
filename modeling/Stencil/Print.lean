import Stencil.Sink.LineBuffer

/-!
# Printing a Line

Printing goes through a line buffer, so a line is cut at the capacity of the
buffer, and a character cut in half is left out. A failed rendering prints what
it had written before it failed.

## Main definitions

* `printed`: The text that printing a template puts out.
-/

namespace Stencil

/-- The capacity of the buffer that printing goes through. -/
def printCapacity : Nat := 256

/-- The text put out by printing a template, with a line end or without. -/
def printed (template : Text) (args : Arguments) (newline : Bool) : Text :=
  let (buffer, _) := formatTo (LineBuffer.empty : LineBuffer printCapacity) template args
  if newline then buffer.text ++ ['\n'] else buffer.text

end Stencil
