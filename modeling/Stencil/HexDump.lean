import Stencil.Rendering

/-!
# Hex Dumps

A byte region is rendered as its bytes in hexadecimal, each followed by a
blank, the last one included. The trailing blank is what makes the dump of two
regions in a row the dump of both. So every byte takes the same length, and the
length of a dump is worked out from the number of bytes alone.

## Main definitions

* `HexDump.entry`: The calls for one byte.
* `HexDump.dump`: The rendering of a region.
-/

namespace Stencil

namespace HexDump

/-- The digit of a half byte. -/
def digit (nibble : UInt8) : Char := Nat.digitChar (nibble &&& 0x0F).toNat

/-- One byte: two digits and a blank, each in a call of its own. -/
def entry (b : UInt8) : List Event :=
  [.char (digit (b >>> 4)), .char (digit b), .char ' ']

/-- How many bytes of output there are for one of input. -/
def entryLength : Nat := 3

/-- A byte region, byte by byte. -/
def dump (bytes : List UInt8) : Rendering :=
  .reporting (bytes.flatMap entry) (bytes.length * entryLength)

/-- The renderer of a byte region. The spec says nothing. -/
def render (bytes : List UInt8) : Renderer := fun _ => dump bytes

end HexDump

end Stencil
