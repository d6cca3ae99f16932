import Stencil.Sink
import Stencil.Sink.Region

/-!
# Line Buffers

A buffer for one line, with its bytes inside it. The capacity is part of the
type and the last byte is always reserved for the terminator, so there is no
limit to store and none to choose. Starting over leaves a terminated empty
line, where a sink over a lent region would leave the old bytes alone.

## Main definitions

* `LineBuffer`: A buffer of a fixed capacity.
* `LineBuffer.bytesWithTerminator`: The content and the byte after it.
-/

namespace Stencil

/-- A buffer of `capacity` bytes for one terminated line. -/
structure LineBuffer (capacity : Nat) where
  region : Region

namespace LineBuffer

variable {capacity : Nat}

def empty : LineBuffer capacity := ⟨Region.fresh (List.replicate capacity 0)⟩

/-- How many bytes of content the buffer can hold. -/
def contentCapacity (_ : LineBuffer capacity) : Nat := capacity - 1

def size (b : LineBuffer capacity) : Nat := b.region.cursor

def isEmpty (b : LineBuffer capacity) : Bool := b.region.cursor = 0

def bytes (b : LineBuffer capacity) : List UInt8 := b.region.written

/-- The written bytes and the one after them, which is the terminator once the
    output is complete. A buffer without bytes has none. -/
def bytesWithTerminator (b : LineBuffer capacity) : List UInt8 :=
  b.region.bytes.take (b.region.cursor + 1)

/-- The written text, without a character that was cut at the end. -/
def text (b : LineBuffer capacity) : Text := b.region.text

/-- Start over with an empty terminated line. -/
def clear (b : LineBuffer capacity) : LineBuffer capacity := ⟨b.region.rewind.terminate⟩

instance : Sink (LineBuffer capacity) where
  writeChar b c := ⟨b.region.putChar b.contentCapacity c⟩
  writeText b t := ⟨b.region.put b.contentCapacity t.bytes⟩
  finish b := ⟨b.region.terminate⟩

end LineBuffer

end Stencil
