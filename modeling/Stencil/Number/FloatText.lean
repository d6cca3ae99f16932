import Stencil.Number.Numeral
import Stencil.Number.Precision
import Stencil.Number.Split
import Stencil.Rendering

/-!
# The Text of a Float

A float is printed from its split: the integral part with the sign, a point
and the fraction digits if any appear, and the exponent if there is one. Each
of these is a call of its own.

The sign is that of the value and not of the bit pattern, so zero has none.

## Main definitions

* `FloatText.renderSplit`: The rendering of a split.
* `FloatText.render`: The renderer of a double.
-/

namespace Stencil

namespace FloatText

/-- A numeral in one run, computed in a 64-bit word. -/
def numeral (negative : Bool) (magnitude : Nat) : Rendering :=
  .text (Numeral.decimal negative (BitVec.ofNat 64 magnitude))

/-- The point and the digits after it, if there are any. -/
def fractionPart (digits : Text) : Rendering :=
  if digits.isEmpty then .done else (Rendering.reporting [.char '.'] 1).andThen (.text digits)

/-- The exponent, if it is not zero. -/
def exponentPart (exponent : Int) : Rendering :=
  if exponent = 0 then .done
  else (Rendering.reporting [.char 'e'] 1).andThen (numeral (exponent < 0) exponent.natAbs)

/-- Render a split with a sign. -/
def renderSplit (negative : Bool) (s : Split) (precision : Precision) : Rendering :=
  (numeral negative s.integral).andThen
    ((fractionPart (precision.select fractionDigits s.fraction)).andThen
      (exponentPart s.exponent))

/-- Render a double. -/
def render : Binary64 → Renderer
  | .nan, _ => .reporting [.text ['n', 'a', 'n']] 3
  | .infinite false, _ => .text ['i', 'n', 'f']
  | .infinite true, _ => .text ['-', 'i', 'n', 'f']
  | .finite negative magnitude, spec =>
    renderSplit (Binary64.isNegative (.finite negative magnitude)) (Split.ofMagnitude magnitude)
      (Precision.ofSpec spec)

end FloatText

end Stencil
