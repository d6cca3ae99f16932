/-!
# Double-Precision Numbers

A finite double is a rational number with a sign: the sign is kept apart from
the magnitude because zero has one. Arithmetic on doubles is exact arithmetic
on rationals followed by one rounding, so the only thing to define is `round`.

The doubles around a magnitude form a grid whose spacing is a power of two.
The spacing follows the binary order of magnitude, with 53 significant bits to
a number, and stops shrinking at `2^(-1074)`, below which there are no doubles.
Rounding goes to the nearest point of that grid, and half way between two
points to the one that is an even multiple of the spacing.

There is no largest double here. A magnitude is rounded as if the exponents
went on for ever, so an operation that could overflow has to be kept from it by
its caller.

## Main definitions

* `Binary64`: A double.
* `Binary64.binaryOrder`: The binary order of magnitude of a positive rational.
* `Binary64.spacing`: The distance between doubles around a magnitude.
* `Binary64.nearestInt`: The nearest integer, ties to even.
* `Binary64.round`: The nearest double to a magnitude.
* `Binary64.Layout`: How a format divides its bits.
* `Binary64.ofBits`, `Binary64.ofBits32`: Reading a bit pattern.
* `Binary64.toBits`: The bit pattern of a number.
-/

namespace Stencil

/-- A number in the double-precision format. -/
inductive Binary64
  | nan
  | infinite (negative : Bool)
  /-- A sign and a magnitude that is not negative. -/
  | finite (negative : Bool) (magnitude : Rat)
  deriving DecidableEq

namespace Binary64

/-- A power of two. -/
def powerOfTwo (e : Int) : Rat := 2 ^ e

/-- The exponent `k` with `2^k ≤ x < 2^(k + 1)`, for positive `x`. The lengths
    of numerator and denominator settle it up to one. -/
def binaryOrder (x : Rat) : Int :=
  -- A quotient of numbers of these lengths is between `2^(k - 1)` and `2^(k + 1)`.
  let k : Int := (x.num.natAbs.log2 : Int) - (x.den.log2 : Int)
  if powerOfTwo k ≤ x then k else k - 1

/-- The exponent of the distance between doubles around `x`. -/
def spacingExponent (x : Rat) : Int := max (binaryOrder x - 52) (-1074)

/-- The distance between doubles around `x`. -/
def spacing (x : Rat) : Rat := powerOfTwo (spacingExponent x)

/-- The nearest integer. A tie goes to the even neighbour. -/
def nearestInt (x : Rat) : Int :=
  let below := x.floor
  let twice := 2 * (x - below)
  if twice < 1 then below
  else if 1 < twice then below + 1
  else if below % 2 = 0 then below
  else below + 1

/-- The nearest double to a magnitude. A tie goes to the even neighbour. -/
def round (x : Rat) : Rat := nearestInt (x / spacing x) * spacing x

/-- How a format divides its bits, below the sign, into exponent and fraction. -/
structure Layout where
  fractions : Nat
  exponents : Nat
  /-- The exponent of the least positive number, which is a power of two. -/
  lowest : Int

/-- Double precision: 52 bits of fraction and 11 of exponent. -/
def double : Layout := ⟨0x10000000000000, 0x800, -1074⟩

/-- Single precision: 23 bits of fraction and 8 of exponent. -/
def single : Layout := ⟨0x800000, 0x100, -149⟩

/-- Read a bit pattern. The least exponent marks numbers without a leading one,
    the greatest infinities and non-numbers. -/
def decode (layout : Layout) (bits : Nat) : Binary64 :=
  let fraction := bits % layout.fractions
  let exponent := bits / layout.fractions % layout.exponents
  let negative : Bool := bits / layout.fractions / layout.exponents % 2 = 1
  if exponent = layout.exponents - 1 then
    if fraction = 0 then infinite negative else nan
  else if exponent = 0 then
    -- No leading one, and the spacing of the least numbers.
    finite negative (fraction * powerOfTwo layout.lowest)
  else
    finite negative
      ((layout.fractions + fraction : Nat) * powerOfTwo (layout.lowest + (exponent - 1 : Nat)))

/-- The double with a 64-bit pattern. -/
def ofBits (bits : BitVec 64) : Binary64 := decode double bits.toNat

/-- The single-precision number with a 32-bit pattern. Every one of them is a
    double. -/
def ofBits32 (bits : BitVec 32) : Binary64 := decode single bits.toNat

/-- The exponent and fraction fields of a magnitude on the grid of doubles. -/
def magnitudeBits (x : Rat) : Nat :=
  let significand := (x / spacing x).floor.toNat
  if significand < double.fractions then significand
  else (spacingExponent x - double.lowest).toNat * double.fractions + significand

/-- Put the sign on top of the exponent and fraction fields. -/
def signedBits (negative : Bool) (fields : Nat) : BitVec 64 :=
  BitVec.ofNat 64 (if negative then double.exponents * double.fractions + fields else fields)

/-- The bit pattern of a double, where it is a number. -/
def toBits : Binary64 → Option (BitVec 64)
  | nan => none
  | infinite negative => some (signedBits negative ((double.exponents - 1) * double.fractions))
  | finite negative magnitude => some (signedBits negative (magnitudeBits magnitude))

/-- Whether the number lies below zero. Zero with a sign does not. -/
def isNegative : Binary64 → Bool
  | nan => false
  | infinite negative => negative
  | finite negative magnitude => negative && magnitude ≠ 0

end Binary64

end Stencil
