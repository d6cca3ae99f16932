import Stencil.Proofs.Number.FloatLayout
import Stencil.Proofs.Number.Reduction

/-!
# The Digits of Large Numbers

A large number is printed with one digit in front of the point, and that digit is
not zero. The significand has such a digit because it lies between one and ten.
Rounding the fraction can carry into it. Where the carry would make it ten, it
becomes one and the exponent goes up instead, which the largest exponent is never
asked to do.

Positive exponents belong to large numbers only, so the text of every number with
one begins with the sign, that digit, and what stands behind it.

## Main definitions

* `Split.Leading`: A split has a digit in front of the point that is not zero, and an
  exponent between two bounds.
* `FloatText.OneDigit`: A text has one digit in front of the point.

## Theorems

* `Split.large_split`: The digit and the exponent of a large number.
* `Split.exponent_cases`: Which exponents there are.
* `FloatText.large_digit`: Large numbers have one digit in front of the point, in
  their form, in their split and in their text.
-/

namespace Stencil

namespace Split

open Binary64 Scientific

/-- There is one digit in front of the point, which is not zero, and the exponent is
    between two bounds. -/
structure Leading (least most : Int) (s : Split) : Prop where
  one_le : 1 ≤ s.integral
  le_nine : s.integral ≤ 9
  exponent_ge : least ≤ s.exponent
  exponent_le : s.exponent ≤ most

/-- The split of a large form has one digit in front of the point, with a carry and
    without. -/
theorem leading_ofForm {form : Form} (h : LargeForm form) : Leading 7 308 (ofForm form) := by
  rcases truncate_digit h.one_le h.lt_ten with ⟨hdigit, hdigit'⟩
  have hlow := h.exponent_ge
  have hhigh := h.exponent_le
  -- With the largest exponent the digit is one, and a carry stops at two.
  have hmost : form.exponent = 308 → truncate form.significand = 1 := by
    intro heq
    refine truncate_eq ?_ ?_ (by decide)
    · exact_mod_cast h.one_le
    · exact_mod_cast h.lt_two heq
  -- The split is the form cut off, or counted up, or one with the next exponent.
  have hcases := ofForm_cases form
  refine ⟨?_, ?_, ?_, ?_⟩
  all_goals omega

theorem large_split {n : Nat} (hn : n < 0x7FF * leadingOne) (h : upperThreshold ≤ ofFields n) :
    Leading 7 308 (ofMagnitude (ofFields n)) :=
  leading_ofForm (large_form hn h)

/-- The exponent of a large number is positive, that of a small one negative, and
    those in between have none. -/
theorem exponent_cases {n : Nat} (hn : n < 0x7FF * leadingOne) :
    (upperThreshold ≤ ofFields n ∧ 7 ≤ (ofMagnitude (ofFields n)).exponent) ∨
      ((0 < ofFields n ∧ ofFields n ≤ lowerThreshold) ∧
        (ofMagnitude (ofFields n)).exponent ≤ -5) ∨
      ((ofFields n = 0 ∨ lowerThreshold < ofFields n) ∧ ofFields n < upperThreshold ∧
        (ofMagnitude (ofFields n)).exponent = 0) := by
  rcases ranges n with hlarge | ⟨hpos, hsmall⟩ | ⟨hplain, hupper⟩
  · exact Or.inl ⟨hlarge, (large_split hn hlarge).exponent_ge⟩
  · exact Or.inr (Or.inl ⟨small_iff_le_lowest.mpr ⟨hpos, hsmall⟩, (small_split hpos hsmall).1.2⟩)
  · exact Or.inr (Or.inr ⟨hplain, hupper, ofMagnitude_plain hupper hplain⟩)

end Split

namespace FloatText

open Binary64 Scientific Numeral

/-- One digit stands in front of the point, which is not zero. Then come the digits
    behind the point and the exponent. -/
def OneDigit (below : Bool) (exponent : Int) (t : Text) : Prop :=
  ∃ d digits, 1 ≤ d ∧ d ≤ 9 ∧ (∀ c ∈ digits, c.isDigit = true) ∧
    t = (if below then ['-'] else []) ++
      Nat.digitChar d :: (pointed digits ++ 'e' :: ofInt exponent)

/-- Parts with one digit in front of the point and an exponent have such a text. -/
theorem oneDigit_text {p : Parts} (hlow : 1 ≤ p.integral) (hhigh : p.integral ≤ 9)
    (hdigits : ∀ c ∈ p.digits, c.isDigit = true) (hexponent : p.exponent ≠ 0) :
    OneDigit p.negative p.exponent p.text := by
  refine ⟨p.integral, p.digits, hlow, hhigh, hdigits, ?_⟩
  rw [Parts.text, signed, powered, if_neg hexponent, Nat.toDigits_of_lt_base (by omega),
    List.append_assoc, List.singleton_append]

/-- A large number has a significand from one up to ten and an exponent in range. Its
    split has one digit in front of the point, also where there was a carry. And every
    number that is printed with a positive exponent has one digit in front of the
    point in its text. -/
theorem large_digit (bits : BitVec 64) (negative : Bool) (v : Rat)
    (hbits : ofBits bits = .finite negative v) :
    (upperThreshold ≤ v →
      (1 ≤ (Scientific.normalize v).significand ∧ (Scientific.normalize v).significand < 10) ∧
      (7 ≤ (Scientific.normalize v).exponent ∧ (Scientific.normalize v).exponent ≤ 308) ∧
      Split.Leading 7 308 (Split.ofMagnitude v)) ∧
    (0 < (Split.ofMagnitude v).exponent →
      upperThreshold ≤ v ∧ ∀ spec, OneDigit (amount negative v < 0)
        (Split.ofMagnitude v).exponent (render (.finite negative v) spec).content) := by
  rcases exists_ofFields_of_ofBits hbits with ⟨n, hn, rfl⟩
  refine ⟨fun hlarge => ?_, fun hpositive => ?_⟩
  · have hform := large_form hn hlarge
    exact ⟨⟨hform.one_le, hform.lt_ten⟩, ⟨hform.exponent_ge, hform.exponent_le⟩,
      Split.large_split hn hlarge⟩
  · -- Neither small numbers nor those in between have a positive exponent.
    have hlarge : upperThreshold ≤ ofFields n := by
      rcases Split.exponent_cases hn with ⟨hlarge, -⟩ | ⟨-, hnegative⟩ | ⟨-, -, hzero⟩
      · exact hlarge
      · exact absurd hpositive (by omega)
      · exact absurd hpositive (by omega)
    have hleading := Split.large_split hn hlarge
    refine ⟨hlarge, fun spec => ?_⟩
    -- The text is made of the parts, and the sign is that of the number.
    rw [content_render, ← isNegative_finite negative (ofFields_nonneg n)]
    exact oneDigit_text hleading.one_le hleading.le_nine (isDigit_partsOf negative _ _)
      (ne_of_gt hpositive)

/-- The double below `10^8` has a significand that is rounded to ten, and is printed
    with one digit. -/
theorem large_digit_carried :
    upperThreshold ≤ ofFields 0x4197D783FFFFFFFF ∧
      Split.Leading 7 308 (Split.ofMagnitude (ofFields 0x4197D783FFFFFFFF)) ∧
      Split.ofMagnitude (ofFields 0x4197D783FFFFFFFF) = ⟨1, 0, 8⟩ := by
  have hbits : ofBits 0x4197D783FFFFFFFF = .finite false (ofFields 0x4197D783FFFFFFFF) := by
    decide +kernel
  have hlarge : upperThreshold ≤ ofFields 0x4197D783FFFFFFFF := by
    decide +kernel
  exact ⟨hlarge, ((large_digit _ false _ hbits).1 hlarge).2.2, by decide +kernel⟩

end FloatText

end Stencil
