import Stencil.Text

/-!
# Blank Characters

The characters that Unicode calls white space, all 25 of them, and cutting them
off the ends of a text.

## Main definitions

* `Text.isBlank`: Whether a character has the property.
* `Text.trim`: A text without the blanks at its ends.
-/

namespace Stencil

namespace Text

/-- The `White_Space` property: the controls from tab to carriage return, next
    line, and the spaces and separators in their several widths. -/
def isBlank (c : Char) : Bool :=
  (0x09 ≤ c.toNat ∧ c.toNat ≤ 0x0D) ∨ c.toNat = 0x20 ∨ c.toNat = 0x85 ∨ c.toNat = 0xA0 ∨
    c.toNat = 0x1680 ∨ (0x2000 ≤ c.toNat ∧ c.toNat ≤ 0x200A) ∨ c.toNat = 0x2028 ∨
    c.toNat = 0x2029 ∨ c.toNat = 0x202F ∨ c.toNat = 0x205F ∨ c.toNat = 0x3000

/-- Cut the blanks off both ends. -/
def trim (t : Text) : Text := ((t.dropWhile isBlank).reverse.dropWhile isBlank).reverse

end Text

end Stencil
