import Stencil.Text

/-!
# How an Integer Is Spelled

The spec of an integer field chooses between decimal and hexadecimal, and for
the latter between the two cases of the letters. There is nothing else to
choose: a hexadecimal numeral always has the full width of its type.

## Main definitions

* `LetterCase`: The case of the hexadecimal letters.
* `Radix`: The spelling that a spec asks for.
* `Radix.ofSpec`: Reading a spec.
-/

namespace Stencil

/-- The case of the letters among hexadecimal digits. -/
inductive LetterCase
  | lower
  | upper
  deriving DecidableEq

/-- The spelling of an integer. -/
inductive Radix
  | decimal
  /-- Hexadecimal, the bit pattern at full width. -/
  | hexadecimal (letters : LetterCase)
  deriving DecidableEq

namespace Radix

/-- No spec asks for decimal, a spec that starts with `x` for lowercase
    hexadecimal, and any other for uppercase. -/
def ofSpec : Text → Radix
  | [] => decimal
  | 'x' :: _ => hexadecimal .lower
  | _ => hexadecimal .upper

end Radix

namespace LetterCase

/-- The hexadecimal digit worth `n`, for `n` below sixteen. -/
def digit (letters : LetterCase) (n : Nat) : Char :=
  match letters with
  | lower => Nat.digitChar n
  | upper => (Nat.digitChar n).toUpper

end LetterCase

end Stencil
