import Stencil.Rendering
import Stencil.Utf8

/-!
# Null-Terminated Text

A C string is the bytes up to the first zero. They are meant to be text but
nothing vouches for it, so every ill-formed stretch among them is rendered as
U+FFFD.

The characters between two such stretches are sent in one run. The run before
a replacement is sent even if it is empty; the run at the end only if it is
not. Either way the characters sent are those of `Utf8.lossy`.

## Main definitions

* `CString.render`: The renderer of a C string.
-/

namespace Stencil

namespace CString

/-- The bytes before the first zero. -/
def content (bytes : List UInt8) : List UInt8 := bytes.takeWhile (· ≠ 0)

/-- Send segments, with the run in hand back to front. -/
def sendSegments : Text → List Utf8.Segment → Rendering
  | run, [] => if run.isEmpty then .done else .text run.reverse
  | run, some c :: rest => sendSegments (c :: run) rest
  | run, none :: rest =>
    (Rendering.text run.reverse).andThen
      ((Rendering.char Utf8.replacement).andThen (sendSegments [] rest))

/-- Render the bytes before the first zero. The spec says nothing. -/
def render (bytes : List UInt8) : Renderer := fun _ =>
  sendSegments [] (Utf8.segments (content bytes))

end CString

end Stencil
