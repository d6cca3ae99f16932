import Stencil.Proofs.Number.Normalizing
import Stencil.Proofs.Number.SmallSplit

/-!
# Splits Are Close

The digits of a split make up a number again. It differs from the double that
was split by about half a unit of the ninth fraction digit, whatever the double
and in whichever form.

Nearly all of that is the half unit of rounding to nine digits. Scaling the
fraction takes two operations on doubles, which together move it by less than a
millionth of a unit. The rounding is half up, and so is the carry: what is
carried is one unit of the ninth digit, wherever it ends up. Normalizing adds
its eighteen roundings, which are less than a ten-thousandth of a unit.

In plain form there is nothing but the fraction. A number with nine fraction
digits or fewer is a whole number of units, and so is what the digits make up;
two whole numbers that are less than one apart are the same.

## Main definitions

* `Split.denoted`: The number that the digits make up.
* `Split.scaledFraction`: The fraction as a number of units of the ninth digit.
* `Split.halfUp`: Rounding half up.

## Theorems

* `Split.denoted_carry`: The carry is one unit.
* `Split.scaledFraction_near`: Scaling is nearly exact.
* `Split.denoted_ofForm`: What a split denotes, in terms of its form.
* `Split.ofForm_near`: A split is close to its form.
* `Split.denoted_near`: A split is close to its double, and in plain form exact
  where it can be.
-/

namespace Stencil

namespace Split

open Binary64 Scientific

/-- The number that the digits make up. -/
def denoted (s : Split) : Rat := (s.integral + (s.fraction : Rat) / fractionScale) * 10 ^ s.exponent

theorem cast_fractionScale : ((fractionScale : Nat) : Rat) = 10 ^ 9 := by
  norm_num [fractionScale, fractionDigits]

/-- Counting the fraction up is one unit of the ninth digit, whether it is
    carried or not. -/
theorem denoted_carry {s : Split} (hfraction : s.fraction + 1 ≤ fractionScale)
    (hdigit : s.exponent = 0 ∨ s.integral ≤ 9) :
    s.carry.denoted =
      (s.integral + ((s.fraction + 1 : Nat) : Rat) / fractionScale) * 10 ^ s.exponent := by
  have hscale : ((fractionScale : Nat) : Rat) ≠ 0 := by
    rw [cast_fractionScale]
    norm_num
  rw [carry]
  by_cases hless : s.fraction + 1 < fractionScale
  · rw [if_pos hless, denoted]
  · -- The fraction is full, so the unit makes a whole.
    have hfull : s.fraction + 1 = fractionScale := by omega
    rw [if_neg hless, hfull, div_self hscale]
    by_cases hten : s.exponent ≠ 0 ∧ 10 ≤ s.integral + 1
    · have hnine : s.integral = 9 := by omega
      -- Ten in front of the point are one with the next exponent.
      rw [if_pos hten, denoted, hnine, zpow_add₀ (by norm_num : (10 : Rat) ≠ 0)]
      norm_num
      ring
    · rw [if_neg hten, denoted]
      norm_num

/-- As long as it fits its word, the truncation is the floor: no more than the number,
    and less than one away. -/
theorem truncate_bounds {x : Rat} (hx : 0 ≤ x) (h : x ≤ largestWord) :
    (truncate x : Rat) ≤ x ∧ x < truncate x + 1 := by
  have hlow : 0 ≤ x.floor := Rat.le_floor_iff.mpr hx
  have hhigh : x.floor ≤ largestWord := by
    have hfloor : (x.floor : Rat) ≤ x := Rat.le_floor_iff.mp (le_refl _)
    exact_mod_cast le_trans hfloor h
  have hfloor : (truncate x : Int) = x.floor := by
    -- Between zero and the largest word neither bound of the cast takes effect.
    rw [truncate]
    omega
  refine ⟨?_, ?_⟩
  · exact_mod_cast Rat.le_floor_iff.mp (le_of_eq hfloor)
  · exact_mod_cast Rat.floor_lt_iff.mp (show x.floor < ((truncate x + 1 : Nat) : Int) by omega)

/-- The fraction as a number of units of the ninth digit. -/
def scaledFraction (x : Rat) : Rat :=
  Binary64.round (Binary64.round (x - truncate x) * fractionScale)

theorem ofForm_eq (form : Form) :
    ofForm form =
      if 1 / 2 ≤ Binary64.round (scaledFraction form.significand -
          truncate (scaledFraction form.significand))
      then carry ⟨truncate form.significand, truncate (scaledFraction form.significand),
        form.exponent⟩
      else ⟨truncate form.significand, truncate (scaledFraction form.significand),
        form.exponent⟩ :=
  rfl

theorem scaledFraction_whole {x : Rat} (h : x = truncate x) : scaledFraction x = 0 := by
  rw [scaledFraction, ← h, sub_self, Binary64.round_zero, zero_mul, Binary64.round_zero]

section Fraction

variable {x : Rat} (hx : 0 ≤ x) (h : x ≤ largestWord)

include hx h

/-- Taking the integral part away is nearly exact. -/
theorem difference_near :
    |Binary64.round (x - truncate x) - (x - truncate x)| ≤ powerOfTwo (-54) := by
  rcases truncate_bounds hx h with ⟨hlow, hhigh⟩
  have hone : powerOfTwo 0 = 1 := zpow_zero 2
  have hless : x - truncate x < powerOfTwo 0 := by
    rw [hone]
    linarith
  -- Below one a rounding is off by half of the last place, which is the 54th.
  rw [show (-54 : Int) = 0 - 54 from rfl]
  exact round_error_of_lt (sub_nonneg.mpr hlow) hless (by decide)

/-- The fraction stays between zero and a whole when it is rounded, as both are
    doubles. -/
theorem round_fraction_bounds :
    0 ≤ Binary64.round (x - truncate x) * fractionScale ∧
      Binary64.round (x - truncate x) * fractionScale ≤ 10 ^ 9 := by
  rcases truncate_bounds hx h with ⟨hlow, hhigh⟩
  have hnonneg := Binary64.round_nonneg (sub_nonneg.mpr hlow)
  have hle := Binary64.round_le (sub_nonneg.mpr hlow) (by linarith) Binary64.round_one
  rw [cast_fractionScale]
  constructor <;> linarith

/-- So it does when it is scaled, the number of units in a whole being a double. -/
theorem scaledFraction_bounds : 0 ≤ scaledFraction x ∧ scaledFraction x ≤ 10 ^ 9 := by
  rcases round_fraction_bounds hx h with ⟨hlow, hhigh⟩
  have hround := round_natCast (show 10 ^ 9 < 2 ^ 53 by decide)
  rw [Nat.cast_pow] at hround
  rw [scaledFraction]
  exact ⟨Binary64.round_nonneg hlow, Binary64.round_le hlow hhigh hround⟩

theorem scaledFraction_le_word : scaledFraction x ≤ largestWord :=
  le_trans (scaledFraction_bounds hx h).2 (by norm_num [largestWord])

/-- Scaling is nearly exact. -/
theorem scaledFraction_near : |scaledFraction x - (x - truncate x) * 10 ^ 9| ≤ 1 / 10 ^ 6 / 2 := by
  rcases round_fraction_bounds hx h with ⟨hnonneg, hle⟩
  have hdifference := difference_near hx h
  -- The two roundings are one of a number below one, and one of a number below 2^30.
  have hproduct : |scaledFraction x - Binary64.round (x - truncate x) * fractionScale| ≤
      powerOfTwo (30 - 54) :=
    round_error_of_lt hnonneg (lt_of_le_of_lt hle (by norm_num [powerOfTwo])) (by decide)
  have hsmall : powerOfTwo (-54) * 10 ^ 9 + powerOfTwo (-24) ≤ 1 / 10 ^ 6 / 2 := by
    norm_num [powerOfTwo]
  rw [cast_fractionScale, show (30 : Int) - 54 = -24 from rfl] at hproduct
  rw [abs_le] at hdifference hproduct ⊢
  constructor <;> linarith

end Fraction

/-- The nearest whole number, half way up, as far as the difference is exact. -/
def halfUp (y : Rat) : Nat :=
  if 1 / 2 ≤ Binary64.round (y - truncate y) then truncate y + 1 else truncate y

section HalfUp

variable {y : Rat} (hy : 0 ≤ y) (h : y ≤ largestWord)

include hy h

/-- Rounding half up goes at most half the way, but for the rounding of the
    difference that is looked at. -/
theorem halfUp_near : |(halfUp y : Rat) - y| ≤ 1 / 2 + powerOfTwo (-54) := by
  rcases truncate_bounds hy h with ⟨hlow, hhigh⟩
  have hunit := powerOfTwo_pos (-54)
  have hdifference := difference_near hy h
  rw [abs_le] at hdifference
  rw [halfUp]
  -- The difference is above or below a half as its rounding is, but for the error.
  split
  · push_cast
    rw [abs_le]
    constructor <;> linarith
  · rw [abs_le]
    constructor <;> linarith

/-- A rounding up leaves something below it to be rounded. -/
theorem lt_of_half_up (hup : 1 / 2 ≤ Binary64.round (y - truncate y)) : (truncate y : Rat) < y := by
  refine lt_of_le_of_ne (truncate_bounds hy h).1 (fun heq => ?_)
  rw [sub_eq_zero.mpr heq.symm, Binary64.round_zero] at hup
  exact absurd hup (by norm_num)

/-- A whole number that is not exceeded is not exceeded after rounding either. -/
theorem halfUp_le {n : Nat} (hn : y ≤ n) : halfUp y ≤ n := by
  rw [halfUp]
  split
  · next hup => exact_mod_cast lt_of_lt_of_le (lt_of_half_up hy h hup) hn
  · exact_mod_cast le_trans (truncate_bounds hy h).1 hn

end HalfUp

/-- A split denotes the integral part of the significand and the fraction rounded half
    up, whether that is carried or not. -/
theorem denoted_ofForm {form : Form} (hlow : 0 ≤ form.significand)
    (hword : form.significand ≤ largestWord) (hdigit : form.exponent = 0 ∨ form.significand ≤ 10) :
    (ofForm form).denoted = (truncate form.significand +
      (halfUp (scaledFraction form.significand) : Rat) / fractionScale) * 10 ^ form.exponent := by
  rcases scaledFraction_bounds hlow hword with ⟨hnonneg, hle⟩
  have hword' := scaledFraction_le_word hlow hword
  rw [ofForm_eq, halfUp]
  split
  · next hup =>
      -- A fraction that is rounded up is below a whole, so there is room for the carry.
      have hless := lt_of_half_up hnonneg hword' hup
      have hfull : truncate (scaledFraction form.significand) + 1 ≤ fractionScale := by
        have hlt := lt_of_lt_of_le hless hle
        rw [← cast_fractionScale] at hlt
        exact_mod_cast hlt
      refine denoted_carry hfull (hdigit.imp_right (fun hten => ?_))
      -- With ten in front of the point there is no fraction to carry.
      by_contra hmany
      have hmany : (10 : Rat) ≤ truncate form.significand := by
        exact_mod_cast (by simp only at hmany; omega : 10 ≤ truncate form.significand)
      have hwhole := (truncate_bounds hlow hword).1
      rw [scaledFraction_whole (by linarith), truncate_zero, Nat.cast_zero] at hless
      exact absurd hless (lt_irrefl _)
  · rfl

/-- Half a unit in the digits is half a unit in the number. -/
theorem digits_near {form : Form} (hlow : 0 ≤ form.significand)
    (hword : form.significand ≤ largestWord) {units : Nat}
    (hunits : |(units : Rat) - scaledFraction form.significand| ≤ 1 / 2 + powerOfTwo (-54)) :
    |(truncate form.significand + (units : Rat) / fractionScale) * 10 ^ form.exponent -
      form.value| ≤ (1 / 2 + 1 / 10 ^ 6) * 10 ^ (form.exponent - 9) := by
  have hscaled := scaledFraction_near hlow hword
  have hsmall : powerOfTwo (-54) ≤ 1 / 10 ^ 6 / 2 := by norm_num [powerOfTwo]
  -- Divided by the number of units both errors stay below half a unit and a millionth of
  -- one.
  have hdigits : |(truncate form.significand + (units : Rat) / 10 ^ 9) - form.significand| ≤
      (1 / 2 + 1 / 10 ^ 6) / 10 ^ 9 := by
    rw [abs_le] at hunits hscaled ⊢
    constructor <;> linarith
  have hunit := ten_zpow_pos form.exponent
  have hscale : (10 : Rat) ^ (form.exponent - 9) = 10 ^ form.exponent / 10 ^ 9 :=
    zpow_sub₀ (by norm_num) form.exponent 9
  -- The power of ten is a common factor, and it turns units of the digits into units of
  -- the number.
  rw [cast_fractionScale, Form.value, ← sub_mul, abs_mul, abs_of_pos hunit, hscale,
    mul_div_left_comm, mul_comm (10 ^ form.exponent : Rat)]
  exact mul_le_mul_of_nonneg_right hdigits (le_of_lt hunit)

/-- A split is close to its form. -/
theorem ofForm_near {form : Form} (hlow : 0 ≤ form.significand) (hhigh : form.significand < 10 ^ 7)
    (hdigit : form.exponent = 0 ∨ form.significand ≤ 10) :
    |(ofForm form).denoted - form.value| ≤ (1 / 2 + 1 / 10 ^ 6) * 10 ^ (form.exponent - 9) := by
  have hword : form.significand ≤ largestWord :=
    le_trans (le_of_lt hhigh) (by norm_num [largestWord])
  rcases scaledFraction_bounds hlow hword with ⟨hnonneg, hle⟩
  have hword' := scaledFraction_le_word hlow hword
  rw [denoted_ofForm hlow hword hdigit]
  exact digits_near hlow hword (halfUp_near hnonneg hword')

/-- The exponent of a split is that of its form or one more, and in plain form
    there is none. -/
theorem exponent_ofForm (form : Form) :
    form.exponent ≤ (ofForm form).exponent ∧
      (form.exponent = 0 → (ofForm form).exponent = 0) := by
  rw [ofForm_eq]
  split
  · rw [carry]
    split
    · exact ⟨le_refl _, id⟩
    · split
      · rename_i hten
        exact ⟨by simp only []; omega, fun hzero => absurd hzero hten.1⟩
      · exact ⟨le_refl _, id⟩
  · exact ⟨le_refl _, id⟩

/-- The error of the form and that of its digits add up to less than half a unit and a
    ten-thousandth of one. -/
theorem ofMagnitude_near {n : Nat} (hn : n < 0x7FF * leadingOne) :
    |(ofMagnitude (ofFields n)).denoted - ofFields n| ≤
      (1 / 2 + 1 / 10 ^ 4) * 10 ^ ((ofMagnitude (ofFields n)).exponent - 9) := by
  have happrox := normalize_approximates hn
  have hform := ofForm_near happrox.nonneg happrox.lt happrox.plain_or_le_ten
  have herror := happrox.error
  rw [ofMagnitude]
  generalize Scientific.normalize (ofFields n) = form at hform herror ⊢
  -- A carry into the exponent only makes the unit larger.
  have hunit : (10 : Rat) ^ (form.exponent - 9) ≤ 10 ^ ((ofForm form).exponent - 9) :=
    zpow_le_zpow_right₀ (by norm_num) (by have := (exponent_ofForm form).1; omega)
  have hpos := ten_zpow_pos (form.exponent - 9)
  -- The form stands between the split and the number.
  calc |(ofForm form).denoted - ofFields n|
      ≤ |(ofForm form).denoted - form.value| + |form.value - ofFields n| := abs_sub_le _ _ _
    _ ≤ (1 / 2 + 1 / 10 ^ 4) * 10 ^ (form.exponent - 9) := by linarith
    _ ≤ (1 / 2 + 1 / 10 ^ 4) * 10 ^ ((ofForm form).exponent - 9) :=
        mul_le_mul_of_nonneg_left hunit (by norm_num)

theorem ofMagnitude_plain {x : Rat} (hupper : x < upperThreshold)
    (hlower : x = 0 ∨ lowerThreshold < x) : (ofMagnitude x).exponent = 0 := by
  rw [ofMagnitude, normalize_plain hupper hlower]
  exact (exponent_ofForm ⟨x, 0⟩).2 rfl

/-- Without an exponent the digits make up a whole number of units, and there is
    only one such number within half a unit. -/
theorem denoted_eq_of_near {s : Split} {k : Nat} (hplain : s.exponent = 0)
    (hnear : |s.denoted - (k : Rat) / 10 ^ 9| ≤ (1 / 2 + 1 / 10 ^ 4) * 10 ^ (s.exponent - 9)) :
    s.denoted = (k : Rat) / 10 ^ 9 := by
  -- With no exponent the digits in front of the point are units as well.
  have hwhole : s.denoted = ((s.integral * 10 ^ 9 + s.fraction : Nat) : Rat) / 10 ^ 9 := by
    rw [denoted, hplain, zpow_zero, mul_one, cast_fractionScale]
    push_cast
    ring
  have hunit : (10 : Rat) ^ ((0 : Int) - 9) = 1 / 10 ^ 9 := by norm_num
  rw [hwhole, hplain, hunit, abs_le] at hnear
  rw [hwhole]
  generalize s.integral * 10 ^ 9 + s.fraction = m at hnear ⊢
  -- Both are numbers of units now, and they are less than one apart.
  have hlow : (k : Rat) < (m + 1 : Nat) := by
    push_cast
    linarith
  have hhigh : (m : Rat) < (k + 1 : Nat) := by
    push_cast
    linarith
  have hlow := Nat.cast_lt.mp hlow
  have hhigh := Nat.cast_lt.mp hhigh
  rw [show m = k by omega]

/-- The digits of a double that is not below zero make up a number that is
    within half a unit of the ninth fraction digit and a ten-thousandth of one.
    A double in plain form with nine fraction digits or fewer is what its digits
    make up. -/
theorem denoted_near (bits : BitVec 64) (negative : Bool) (v : Rat)
    (hbits : ofBits bits = .finite negative v) (hsign : isNegative (ofBits bits) = false) :
    |(ofDouble (ofBits bits)).denoted - v| ≤
        (1 / 2 + 1 / 10 ^ 4) * 10 ^ ((ofDouble (ofBits bits)).exponent - 9) ∧
      (v < upperThreshold → (v = 0 ∨ lowerThreshold < v) → (∃ k : Nat, v = k / 10 ^ 9) →
        (ofDouble (ofBits bits)).denoted = v) := by
  rw [hbits] at hsign ⊢
  cases negative with
  | true =>
      -- Only zero has a sign and is not below zero, and its digits are zero.
      have hzero : v = 0 := by
        rw [isNegative, Bool.true_and, decide_eq_false_iff_not, not_not] at hsign
        exact hsign
      have hsplit : ofDouble (.finite true v) = ⟨0, 0, 0⟩ := rfl
      have hdenoted : (ofDouble (.finite true v)).denoted = v := by
        rw [hsplit, hzero, denoted]
        norm_num
      refine ⟨?_, fun _ _ _ => hdenoted⟩
      rw [hdenoted, sub_self, abs_zero]
      positivity
  | false =>
      rcases ofBits_finite hbits with ⟨hfields, hrange⟩
      have hsplit : ofDouble (.finite false v) = ofMagnitude v := rfl
      have hnear := ofMagnitude_near hrange
      rw [← hfields] at hnear
      -- The sign is off, so the fields are those of the magnitude.
      rw [hsplit]
      refine ⟨hnear, ?_⟩
      rintro hupper hlower ⟨k, hk⟩
      rw [hk] at hupper hlower hnear ⊢
      exact denoted_eq_of_near (ofMagnitude_plain hupper hlower) hnear

/-- The digits of the largest double of all are close to it, and a double that
    has nine fraction digits is what its digits make up. -/
theorem denoted_near_largest :
    |(ofDouble (ofBits 0x7FEFFFFFFFFFFFFF)).denoted - ofFields 0x7FEFFFFFFFFFFFFF| ≤
        (1 / 2 + 1 / 10 ^ 4) * 10 ^ ((ofDouble (ofBits 0x7FEFFFFFFFFFFFFF)).exponent - 9) ∧
      (ofDouble (ofBits 0x4132D68700800000)).denoted = 1234567001953125 / 10 ^ 9 :=
  ⟨(denoted_near 0x7FEFFFFFFFFFFFFF false (ofFields 0x7FEFFFFFFFFFFFFF) (by decide +kernel)
      (by decide +kernel)).1,
    (denoted_near 0x4132D68700800000 false (1234567001953125 / 10 ^ 9) (by decide +kernel)
      (by decide +kernel)).2 (by decide +kernel) (Or.inr (by decide +kernel))
      ⟨1234567001953125, by norm_num⟩⟩

end Split

end Stencil
