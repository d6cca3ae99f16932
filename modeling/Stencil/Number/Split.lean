import Stencil.Number.Scientific

/-!
# Splitting a Number into Digits

After the power of ten is factored out, a magnitude is cut at the point. What
stands before it is an integer by truncation. What stands after it is scaled
by `10^9` and rounded half up, which makes nine fraction digits. If they round
up to a whole, one is carried into the integral part; and if that makes the
integral part of a scientific form ten, it becomes one and the exponent goes up
instead.

The two truncations are to 32-bit words and stop at the largest one, which no
finite magnitude in the form `normalize` gives ever reaches.

## Main definitions

* `Split`: Integral part, nine fraction digits, exponent.
* `Split.ofMagnitude`: The split of a magnitude.
* `Split.ofDouble`: The split of any double.
-/

namespace Stencil

/-- How many fraction digits are computed. -/
def fractionDigits : Nat := 9

/-- The number of values that the fraction digits can take. -/
def fractionScale : Nat := Nat.pow 10 fractionDigits

/-- The number `integral.fraction × 10^exponent`. -/
structure Split where
  integral : Nat
  /-- What stands after the point, as nine digits. -/
  fraction : Nat
  /-- The power of ten, zero in plain form. -/
  exponent : Int
  deriving DecidableEq, Repr

namespace Split

/-- The largest word a truncation can give. -/
def largestWord : Nat := UInt32.size - 1

/-- Cut off the fraction of a magnitude, stopping at the largest word. -/
def truncate (x : Rat) : Nat := min x.floor.toNat largestWord

/-- Count the fraction up by one, and carry. -/
def carry (s : Split) : Split :=
  if s.fraction + 1 < fractionScale then { s with fraction := s.fraction + 1 }
  -- A plain form may well have two digits in front of the point.
  else if s.exponent ≠ 0 ∧ 10 ≤ s.integral + 1 then ⟨1, 0, s.exponent + 1⟩
  else ⟨s.integral + 1, 0, s.exponent⟩

/-- Cut a form at the point. Both the difference and the product are operations
    on doubles. -/
def ofForm (form : Scientific.Form) : Split :=
  let integral := truncate form.significand
  let scaled := Binary64.round (Binary64.round (form.significand - integral) * fractionScale)
  let fraction := truncate scaled
  let split : Split := ⟨integral, fraction, form.exponent⟩
  if 1 / 2 ≤ Binary64.round (scaled - fraction) then split.carry else split

/-- The split of a magnitude. -/
def ofMagnitude (x : Rat) : Split := ofForm (Scientific.normalize x)

/-- The split of any double. What is not a magnitude has no digits: a negative
    number and a non-number are cut to zero, and an infinity to the largest
    word. -/
def ofDouble : Binary64 → Split
  | .finite false magnitude => ofMagnitude magnitude
  | .infinite false => ⟨largestWord, 0, (Scientific.normalizeDouble (.infinite false)).2⟩
  | _ => ⟨0, 0, 0⟩

end Split

end Stencil
