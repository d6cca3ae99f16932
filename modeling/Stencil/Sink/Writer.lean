import Stencil.Sink

/-!
# Writers

A sink in front of a text that grows, and that may refuse a write. Whatever is
refused is refused whole, and the refusal is dropped: a sink cannot report it.
Without a limit nothing is ever refused, and the text is all that was sent.

## Main definitions

* `Writer`: A growing text, and how long it may become.
-/

namespace Stencil

/-- A text that grows up to a limit, if there is one. -/
structure Writer where
  limit : Option Nat
  text : Text

namespace Writer

def withLimit (limit : Option Nat) : Writer := ⟨limit, []⟩

/-- A writer that never refuses. -/
def unlimited : Writer := withLimit none

/-- Whether a run can be accepted. -/
def admits (w : Writer) (t : Text) : Bool :=
  match w.limit with
  | none => true
  | some limit => w.text.byteLength + t.byteLength ≤ limit

/-- Accept a run whole, or refuse it whole. -/
def append (w : Writer) (t : Text) : Writer :=
  if w.admits t then { w with text := w.text ++ t } else w

instance : Sink Writer where
  writeChar w c := w.append [c]
  writeText w t := w.append t

end Writer

end Stencil
