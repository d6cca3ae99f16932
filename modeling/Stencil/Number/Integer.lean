import Stencil.Number.Numeral
import Stencil.Number.Radix
import Stencil.Rendering

/-!
# Integers

Fixed-width integers, signed and unsigned, as bit patterns. The sign is a
reading of the pattern and not a part of it: hexadecimal shows the pattern as
it is, so a negative value appears as its two's complement, while decimal
reads a magnitude and a sign from it. Negating the pattern as a word gives the
magnitude even of the least value, whose magnitude the signed type cannot hold.

One width is that of an address, and what that is depends on the machine. Digits
are computed in a word that is wide enough for all of them.

## Main definitions

* `AddressSize`: The sizes of an address.
* `Width`: The six widths, that of an address among them.
* `Integer`: A bit pattern of some width, to be read as signed or unsigned.
* `Integer.ofInt`: The pattern of a number, wrapped to the width.
* `Integer.render`: The renderer of an integer.
-/

namespace Stencil

/-- How many bytes an address takes. -/
inductive AddressSize
  | two
  | four
  | eight
  deriving DecidableEq, Repr

def AddressSize.bytes : AddressSize → Nat
  | two => 2
  | four => 4
  | eight => 8

/-- The widths of the integer types. -/
inductive Width
  | bits8
  | bits16
  | bits32
  | bits64
  | bits128
  /-- As wide as an address. Most machines take eight bytes for one. -/
  | address (size : AddressSize := .eight)
  deriving DecidableEq, Repr

namespace Width

/-- The number of bytes. -/
def bytes : Width → Nat
  | bits8 => 1
  | bits16 => 2
  | bits32 => 4
  | bits64 => 8
  | bits128 => 16
  | address size => size.bytes

/-- The number of bits. -/
def bits (w : Width) : Nat := 8 * w.bytes

/-- The width of the word in which digits are computed. -/
def working : Width → Nat
  | bits128 => 128
  | _ => 64

end Width

/-- A fixed-width integer. -/
structure Integer where
  width : Width
  signed : Bool
  pattern : BitVec width.bits

namespace Integer

/-- The integer of some type with the value `n`, wrapped to the width. -/
def ofInt (width : Width) (signed : Bool) (n : Int) : Integer :=
  ⟨width, signed, BitVec.ofInt width.bits n⟩

/-- The value that the pattern stands for. -/
def value (n : Integer) : Int := if n.signed then n.pattern.toInt else n.pattern.toNat

/-- Whether the value is below zero. -/
def isNegative (n : Integer) : Bool := n.signed && n.pattern.msb

/-- The distance of the value from zero, as a word of the same width. -/
def magnitude (n : Integer) : BitVec n.width.bits :=
  if n.isNegative then -n.pattern else n.pattern

/-- The decimal numeral of the value. -/
def decimal (n : Integer) : Text :=
  Numeral.decimal n.isNegative (n.magnitude.setWidth n.width.working)

/-- The digit worth the four bits at place `i`, counted from the least
    significant. -/
def nibbleDigit (n : Integer) (letters : LetterCase) (i : Nat) : Char :=
  letters.digit (n.pattern.extractLsb' (4 * i) 4).toNat

/-- The hexadecimal digits of the pattern, most significant first: two for
    each byte of the type. -/
def hexDigits (n : Integer) (letters : LetterCase) : Text :=
  (List.range (2 * n.width.bytes)).reverse.map (n.nibbleDigit letters)

/-- Render an integer. A decimal numeral is one run; a hexadecimal one is the
    run `0x` and then digit by digit, and its length is that of the type. -/
def render (n : Integer) : Renderer := fun spec =>
  match Radix.ofSpec spec with
  | .decimal => .text n.decimal
  | .hexadecimal letters =>
    .reporting (.text ['0', 'x'] :: (n.hexDigits letters).map Event.char) (2 * n.width.bytes + 2)

end Integer

end Stencil
