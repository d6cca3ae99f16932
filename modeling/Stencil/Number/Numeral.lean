import Stencil.Text

/-!
# Decimal Numerals

Digits come out of repeated division least significant first, and a numeral is
written most significant first. So the digits are laid from right to left in a
row of `slots` places, each new one in front of those before it, and the sign
goes in front of them all.

The row has a fixed length, and what does not fit is lost without notice. Forty
places hold the largest 128-bit word, which has 39 digits, together with a
sign; nothing wider is ever asked for.

The division is done on machine words. Types of up to 64 bits share the 64-bit
word, and only the 128-bit types pay for a wider one, so the width of the word
is a parameter.

## Main definitions

* `Numeral.slots`: The length of the row.
* `Numeral.digits`: Laying the digits of a word.
* `Numeral.decimal`: The numeral of a sign and a magnitude.
-/

namespace Stencil

namespace Numeral

/-- How many characters a numeral can have. -/
def slots : Nat := 40

/-- Lay the digits of a word in front of those laid already, while there is
    room. The digits of zero are none at all. -/
def digits {w : Nat} (room : Nat) (value : BitVec w) (laid : Text) : Text :=
  match room with
  | 0 => laid
  | room + 1 =>
    if value = 0 then laid
    else digits room (value / 10) (Nat.digitChar (value % 10).toNat :: laid)

/-- The decimal numeral of a magnitude, with a minus sign if asked for. -/
def decimal {w : Nat} (negative : Bool) (magnitude : BitVec w) : Text :=
  let unsigned := if magnitude = 0 then ['0'] else digits slots magnitude []
  if negative ∧ unsigned.length < slots then '-' :: unsigned else unsigned

end Numeral

end Stencil
