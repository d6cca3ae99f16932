import Stencil.Text

/-!
# Precision of a Float Field

The spec of a float field says how many of the nine fraction digits appear. It
cuts and does not round: the digits were rounded when they were computed, and
fewer places show fewer of them.

## Main definitions

* `Precision`: All digits, or a number of places.
* `Precision.ofSpec`: Reading a spec.
* `Precision.select`: The fraction digits that appear.
-/

namespace Stencil

/-- How many fraction digits appear. -/
inductive Precision
  /-- All of them, without trailing zeros. -/
  | full
  | places (n : Nat)
  deriving DecidableEq, Repr

namespace Precision

/-- A point and a digit below nine ask for that many places, a point and a nine
    for all of them. A point without a digit suppresses the fraction, and
    anything else says nothing about it. -/
def ofSpec : Text → Precision
  | ['.'] => places 0
  | '.' :: c :: _ =>
    -- Nine places are all there are, and are shown without the zeros at the end.
    if c = '9' then full
    else if c.isDigit then places (c.toNat - '0'.toNat)
    else places 0
  | _ => full

/-- The last `width` decimal digits of a number, leading zeros included. -/
def fixedDigits : Nat → Nat → Text
  | 0, _ => []
  | width + 1, n => fixedDigits width (n / 10) ++ [Nat.digitChar (n % 10)]

/-- A text without the zeros at its end. -/
def dropTrailingZeros (t : Text) : Text := (t.reverse.dropWhile (· = '0')).reverse

/-- The digits that appear of a fraction of `digits` digits. -/
def select (digits fraction : Nat) : Precision → Text
  | full => dropTrailingZeros (fixedDigits digits fraction)
  | places n => fixedDigits (min n digits) (fraction / Nat.pow 10 (digits - min n digits))

end Precision

end Stencil
