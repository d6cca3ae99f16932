import Stencil.Number.Binary64

/-!
# Scientific Form

Large and small numbers are printed with a power of ten factored out, so that
one digit is left in front of the point. A number between the two thresholds
keeps its plain form.

The power of ten is found in binary: the table lists `10^k` for `k` from 256
down by halves to 1, and each entry is used at most once, as the bits of the
exponent would be. A large number is divided by every entry that it reaches; a
small one is multiplied by every entry that keeps it below ten. Each division
and multiplication is one operation on doubles, with the entry itself already
rounded, so the result is the leading digits up to a few units in the last
place.

## Main definitions

* `Scientific.upperThreshold`, `Scientific.lowerThreshold`: Where plain form ends.
* `Scientific.steps`: The exponents of the table.
* `Scientific.normalize`: The leading digits and the exponent of a magnitude.
-/

namespace Stencil

namespace Scientific

/-- The double nearest to a power of ten. -/
def powerOfTen (e : Int) : Rat := Binary64.round (10 ^ e)

/-- Magnitudes from here up are printed with a positive exponent. -/
def upperThreshold : Rat := powerOfTen 7

/-- Positive magnitudes up to here are printed with a negative exponent. -/
def lowerThreshold : Rat := powerOfTen (-5)

/-- The exponents of the table of powers of ten. -/
def steps : List Int := [256, 128, 64, 32, 16, 8, 4, 2, 1]

/-- A magnitude, and the power of ten factored out of it so far. -/
structure Form where
  significand : Rat
  exponent : Int

/-- Divide by `10^k` if the magnitude reaches it. -/
def reduce (form : Form) (k : Int) : Form :=
  if powerOfTen k ≤ form.significand then
    ⟨Binary64.round (form.significand / powerOfTen k), form.exponent + k⟩
  else form

/-- Multiply by `10^k` if the magnitude stays below ten. -/
def enlarge (form : Form) (k : Int) : Form :=
  -- The entry is a rounded one, and so is the bound.
  if form.significand < powerOfTen (1 - k) then
    ⟨Binary64.round (form.significand * powerOfTen k), form.exponent - k⟩
  else form

/-- The form of a magnitude: plain between the thresholds and for zero, and
    scientific outside them. -/
def normalize (x : Rat) : Form :=
  if upperThreshold ≤ x then steps.foldl reduce ⟨x, 0⟩
  else if 0 < x ∧ x ≤ lowerThreshold then steps.foldl enlarge ⟨x, 0⟩
  else ⟨x, 0⟩

/-- The same on all doubles. An infinity reaches every entry of the table and
    stays what it is; a negative number and a non-number reach none. -/
def normalizeDouble : Binary64 → Binary64 × Int
  | .nan => (.nan, 0)
  | .infinite true => (.infinite true, 0)
  | .infinite false => (.infinite false, steps.foldl (· + ·) 0)
  | .finite true magnitude => (.finite true magnitude, 0)
  | .finite false magnitude =>
    let form := normalize magnitude
    (.finite false form.significand, form.exponent)

end Scientific

end Stencil
