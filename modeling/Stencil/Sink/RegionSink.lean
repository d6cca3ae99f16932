import Stencil.Sink
import Stencil.Sink.Region

/-!
# A Sink over a Byte Region

A caller lends a region of any length, and output is written into it from the
start. With a terminator, the default, the last byte is reserved: content ends
one byte earlier, and completing the output writes a zero after it, so that a
reader of null-terminated text can be handed the region as it is. A region
without bytes has no room for a terminator either, and nothing is written to it.

## Main definitions

* `RegionSink`: A region, the end of its content and whether it is terminated.
* `RegionSink.withTerminator`: A sink over a region, terminated or not.
* `RegionSink.ofBytes`: A sink over a region with a terminator.
-/

namespace Stencil

/-- Output written into a region. -/
structure RegionSink where
  region : Region
  /-- Where content has to stop. -/
  limit : Nat
  /-- Whether completing the output writes a terminator. -/
  terminated : Bool

namespace RegionSink

/-- A sink over the given bytes, with a terminator or without. -/
def withTerminator (bytes : List UInt8) (terminated : Bool) : RegionSink where
  region := Region.fresh bytes
  limit := if terminated then bytes.length - 1 else bytes.length
  terminated := terminated

/-- A sink over the given bytes that writes a terminator. -/
def ofBytes (bytes : List UInt8) : RegionSink := withTerminator bytes true

def size (s : RegionSink) : Nat := s.region.cursor

def isEmpty (s : RegionSink) : Bool := s.region.cursor = 0

/-- The length of the region, the place of the terminator included. -/
def capacity (s : RegionSink) : Nat := s.region.capacity

/-- How many bytes of content can still be written. -/
def remaining (s : RegionSink) : Nat := s.limit - s.region.cursor

def bytes (s : RegionSink) : List UInt8 := s.region.written

/-- The written text, without a character that was cut at the end. -/
def text (s : RegionSink) : Text := s.region.text

/-- Start over. The bytes of the region stay until they are overwritten. -/
def clear (s : RegionSink) : RegionSink := { s with region := s.region.rewind }

instance : Sink RegionSink where
  writeChar s c := { s with region := s.region.putChar s.limit c }
  writeText s t := { s with region := s.region.put s.limit t.bytes }
  finish s := if s.terminated then { s with region := s.region.terminate } else s

end RegionSink

end Stencil
