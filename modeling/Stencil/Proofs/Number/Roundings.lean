import Stencil.Proofs.Number.Rounding
import Mathlib.Algebra.Order.Group.Abs
import Mathlib.Tactic.FieldSimp
import Mathlib.Tactic.Ring

/-!
# Counting Roundings

How far apart two magnitudes can be when one is computed from the other. A
rounding moves a magnitude by half the distance between doubles at most, which
is a fixed small part of it unless the magnitude is very small indeed.

Several roundings in a row are counted rather than added up. Two magnitudes are
within `n` roundings of each other if neither exceeds the other by a factor of
more than the `n`-th power of `roundingFactor`. That is the same in both
directions, and multiplying and dividing by the same number keeps it, so every
rounding of a computation adds one to the count and nothing else has to be kept
in mind. Only at the end is the count turned into a distance.

## Main definitions

* `Binary64.roundingFactor`: What one rounding can do to a magnitude.
* `Binary64.Within`: Apart by a number of roundings at most.

## Theorems

* `Binary64.round_error`: A rounding goes at most half the way to the next double.
* `Binary64.round_error_of_lt`: How far that is below a power of two.
* `Binary64.round_natCast`: Which whole numbers are not rounded.
* `Binary64.within_round`: A rounding is one rounding.
* `Binary64.Within.trans`: Roundings in a row are counted together.
* `Binary64.Within.error`: The distance that a number of roundings can make.
-/

namespace Stencil

namespace Binary64

/-- The nearest integer is half of one away at most. -/
theorem nearestInt_error (x : Rat) : |(nearestInt x : Rat) - x| ≤ 1 / 2 := by
  have hlow : (x.floor : Rat) ≤ x := Rat.le_floor_iff.mp (le_refl _)
  have hhigh : x < ((x.floor + 1 : Int) : Rat) := Rat.floor_lt_iff.mp (by omega)
  push_cast at hhigh
  rw [abs_le, nearestInt]
  -- Each branch knows on which side of the middle the magnitude lies.
  split
  · constructor <;> linarith
  · split
    · push_cast
      constructor <;> linarith
    · split
      · constructor <;> linarith
      · push_cast
        constructor <;> linarith

theorem round_error (x : Rat) : |round x - x| ≤ spacing x / 2 := by
  have hpos := spacing_pos x
  have hx : x = x / spacing x * spacing x := (div_mul_cancel₀ x (ne_of_gt hpos)).symm
  have hdistance :
      round x - x = ((nearestInt (x / spacing x) : Rat) - x / spacing x) * spacing x := by
    rw [sub_mul, ← hx, round]
  rw [hdistance, abs_mul, abs_of_pos hpos]
  -- Counted in spacings the error is that of the nearest integer.
  have hnear := mul_le_mul_of_nonneg_right (nearestInt_error (x / spacing x)) (le_of_lt hpos)
  linarith

theorem half_powerOfTwo (e : Int) : powerOfTwo e / 2 = powerOfTwo (e - 1) := by
  have hadd := powerOfTwo_add (e - 1) 1
  rw [Int.sub_add_cancel, show powerOfTwo 1 = 2 from rfl] at hadd
  rw [hadd, mul_div_cancel_right₀ _ (by norm_num)]

/-- Below a power of two the grid is at least as fine as right below it. -/
theorem round_error_of_lt {x : Rat} {e : Int} (hx : 0 ≤ x) (h : x < powerOfTwo e)
    (he : -1021 ≤ e) : |round x - x| ≤ powerOfTwo (e - 54) := by
  rcases eq_or_lt_of_le hx with hzero | hpos
  · rw [← hzero, round_zero, sub_self, abs_zero]
    exact le_of_lt (powerOfTwo_pos _)
  · have horder := powerOfTwo_lt_iff.mp (lt_of_le_of_lt (binaryOrder_spec hpos).1 h)
    have hspacing : spacing x ≤ powerOfTwo (e - 53) := by
      refine powerOfTwo_le ?_
      rw [spacingExponent]
      omega
    have hhalf := half_powerOfTwo (e - 53)
    rw [show e - 53 - 1 = e - 54 by omega] at hhalf
    have herror := round_error x
    linarith

/-- A power of two that is not below the finest grid is a double. -/
theorem round_powerOfTwo {e : Int} (he : -1074 ≤ e) : round (powerOfTwo e) = powerOfTwo e := by
  have horder : binaryOrder (powerOfTwo e) = e :=
    binaryOrder_unique (le_refl _) (powerOfTwo_lt_iff.mpr (by omega))
  have hgrid : spacingExponent (powerOfTwo e) ≤ e := by
    rw [spacingExponent, horder]
    omega
  exact le_antisymm (round_le_powerOfTwo (le_refl _) hgrid) (powerOfTwo_le_round (le_refl _) hgrid)

/-- A whole number of 53 bits is a double. -/
theorem round_natCast {n : Nat} (hn : n < 2 ^ 53) : round n = n := by
  rcases Nat.eq_zero_or_pos n with hzero | hpos
  · rw [hzero, Nat.cast_zero, round_zero]
  · have hx : (0 : Rat) < n := by exact_mod_cast hpos
    have hbits : (n : Rat) < powerOfTwo (53 : Nat) := by
      rw [powerOfTwo_natCast]
      exact_mod_cast hn
    have horder := powerOfTwo_lt_iff.mp (lt_of_le_of_lt (binaryOrder_spec hx).1 hbits)
    have hgrid : spacingExponent n ≤ 0 := by
      rw [spacingExponent]
      omega
    -- The grid divides one, and so every whole number.
    have hone := powerOfTwo_div hgrid
    rw [show powerOfTwo 0 = 1 from zpow_zero 2] at hone
    have hquot : (n : Rat) / spacing n = ((n * 2 ^ (0 - spacingExponent n).toNat : Nat) : Int) := by
      rw [div_eq_mul_one_div, spacing, hone]
      push_cast
      rfl
    rw [round, hquot, nearestInt_intCast, ← hquot, div_mul_cancel₀ _ (ne_of_gt (spacing_pos _))]

theorem round_one : round 1 = 1 := by
  have hround := round_natCast (show 1 < 2 ^ 53 by decide)
  rwa [Nat.cast_one] at hround

theorem one_le_round {x : Rat} (h : 1 ≤ x) : 1 ≤ round x := by
  have hround := round_mono zero_lt_one h
  rwa [round_one] at hround

/-- Half the distance between doubles is a small part of a magnitude that is not
    very small. -/
theorem round_error_of_normal {x : Rat} (h : powerOfTwo (-1022) ≤ x) :
    |round x - x| ≤ x * powerOfTwo (-53) := by
  have hspec := binaryOrder_spec (lt_of_lt_of_le (powerOfTwo_pos _) h)
  have horder := powerOfTwo_lt_iff.mp (lt_of_le_of_lt h hspec.2)
  have hspacing : spacing x / 2 = powerOfTwo (binaryOrder x) * powerOfTwo (-53) := by
    rw [spacing, half_powerOfTwo, ← powerOfTwo_add, spacingExponent]
    congr 1
    omega
  have herror := round_error x
  rw [hspacing] at herror
  exact le_trans herror (mul_le_mul_of_nonneg_right hspec.1 (le_of_lt (powerOfTwo_pos _)))

/-- What one rounding can do to a magnitude, in either direction. -/
def roundingFactor : Rat := 1 + powerOfTwo (-52)

/-- Two magnitudes are apart by `n` roundings at most. -/
structure Within (n : Nat) (x y : Rat) : Prop where
  left_le : x ≤ y * roundingFactor ^ n
  right_le : y ≤ x * roundingFactor ^ n

theorem one_le_roundingFactor_pow (n : Nat) : 1 ≤ roundingFactor ^ n := by
  refine one_le_pow₀ ?_
  have hpos := powerOfTwo_pos (-52)
  rw [roundingFactor]
  linarith

theorem within_self {x : Rat} (hx : 0 ≤ x) (n : Nat) : Within n x x :=
  ⟨le_mul_of_one_le_right hx (one_le_roundingFactor_pow n),
    le_mul_of_one_le_right hx (one_le_roundingFactor_pow n)⟩

namespace Within

variable {m n : Nat} {x y z : Rat}

theorem symm (h : Within n x y) : Within n y x := ⟨h.right_le, h.left_le⟩

/-- One magnitude within reach of the next: the roundings are counted together. -/
theorem trans (h : Within m x y) (h' : Within n y z) : Within (m + n) x z := by
  have hm := le_trans zero_le_one (one_le_roundingFactor_pow m)
  have hn := le_trans zero_le_one (one_le_roundingFactor_pow n)
  refine ⟨?_, ?_⟩
  · calc x ≤ y * roundingFactor ^ m := h.left_le
      _ ≤ z * roundingFactor ^ n * roundingFactor ^ m := mul_le_mul_of_nonneg_right h'.left_le hm
      _ = z * roundingFactor ^ (m + n) := by rw [pow_add]; ring
  · calc z ≤ y * roundingFactor ^ n := h'.right_le
      _ ≤ x * roundingFactor ^ m * roundingFactor ^ n := mul_le_mul_of_nonneg_right h.right_le hn
      _ = x * roundingFactor ^ (m + n) := by rw [pow_add]; ring

theorem mul_right (h : Within n x y) {c : Rat} (hc : 0 ≤ c) : Within n (x * c) (y * c) := by
  refine ⟨?_, ?_⟩
  · rw [mul_right_comm]
    exact mul_le_mul_of_nonneg_right h.left_le hc
  · rw [mul_right_comm]
    exact mul_le_mul_of_nonneg_right h.right_le hc

/-- Dividing by one and multiplying by the other comes back to the start. -/
theorem div_mul (h : Within n x y) (hx : 0 < x) (hz : 0 ≤ z) : Within n (z / x * y) z := by
  have hquot : 0 ≤ z / x := div_nonneg hz (le_of_lt hx)
  have hcancel : z / x * x = z := div_mul_cancel₀ z (ne_of_gt hx)
  have hleft := mul_le_mul_of_nonneg_left h.right_le hquot
  have hright := mul_le_mul_of_nonneg_left h.left_le hquot
  rw [← mul_assoc] at hleft hright
  rw [hcancel] at hleft hright
  exact ⟨hleft, hright⟩

theorem pos_left (h : Within n x y) (hy : 0 < y) : 0 < x := by
  by_contra hx
  have hpow := le_trans zero_le_one (one_le_roundingFactor_pow n)
  -- Roundings change no sign.
  have hle := mul_nonpos_of_nonpos_of_nonneg (not_lt.mp hx) hpow
  have hright := h.right_le
  linarith

/-- The distance that `n` roundings can make, as a part of the magnitude. -/
theorem error (h : Within n x y) (hx : 0 ≤ x) : |x - y| ≤ (roundingFactor ^ n - 1) * x := by
  have hleft := h.left_le
  have hright := h.right_le
  have hone := one_le_roundingFactor_pow n
  generalize roundingFactor ^ n = r at hleft hright hone ⊢
  -- Dividing by a factor close to one takes no more away than multiplying adds.
  have hlow : x * (2 - r) ≤ y := by
    have hsquare : 0 ≤ x * (r - 1) ^ 2 := mul_nonneg hx (sq_nonneg _)
    by_contra hlt
    have hmul := mul_lt_mul_of_pos_right (not_le.mp hlt) (lt_of_lt_of_le zero_lt_one hone)
    nlinarith
  rw [abs_le]
  constructor <;> linarith

end Within

/-- Rounding is one rounding. -/
theorem within_round {x : Rat} (h : powerOfTwo (-1022) ≤ x) : Within 1 (round x) x := by
  have hpos := lt_of_lt_of_le (powerOfTwo_pos _) h
  have herror := abs_le.mp (round_error_of_normal h)
  have hunit := powerOfTwo_pos (-53)
  have hsmall : powerOfTwo (-53) ≤ 1 / 2 := by
    rw [show (1 : Rat) / 2 = powerOfTwo 0 / 2 from rfl, half_powerOfTwo]
    exact powerOfTwo_le (by decide)
  have hfactor : roundingFactor = 1 + 2 * powerOfTwo (-53) := by
    have hhalf := half_powerOfTwo (-52)
    rw [show (-52 : Int) - 1 = -53 from rfl] at hhalf
    rw [roundingFactor]
    linarith
  generalize powerOfTwo (-53) = u at herror hunit hsmall hfactor
  -- Coming back from the rounded magnitude takes a little more than half a unit,
  -- and the factor has a whole one.
  refine ⟨?_, ?_⟩
  · rw [pow_one, hfactor]
    nlinarith
  · rw [pow_one, hfactor]
    nlinarith

end Binary64

end Stencil
