import Stencil.Number.Binary64
import Mathlib.Algebra.Order.Field.Power
import Mathlib.Algebra.Order.Ring.Rat
import Mathlib.Data.Rat.Floor
import Mathlib.Tactic.Linarith

/-!
# Rounding Keeps Order

Rounding a magnitude to the nearest double never changes the order of two
magnitudes, although the grid that each is rounded to depends on its size. On
one grid this is a property of the nearest integer. Where two magnitudes have
different grids there is a power of two between them, which is a point of both
grids, and neither is rounded across it.

## Theorems

* `Binary64.binaryOrder_spec`, `Binary64.binaryOrder_unique`: The binary order of
  magnitude is what it is said to be.
* `Binary64.nearestInt_mono`: The nearest integer keeps order.
* `Binary64.round_mono`: So does rounding.
* `Binary64.round_eq`: Rounding on a grid that is known.
-/

namespace Stencil

namespace Binary64

theorem powerOfTwo_pos (e : Int) : 0 < powerOfTwo e := Rat.zpow_pos (by norm_num)

theorem powerOfTwo_add (d e : Int) : powerOfTwo (d + e) = powerOfTwo d * powerOfTwo e :=
  Rat.zpow_add (by norm_num) d e

theorem powerOfTwo_le {d e : Int} (h : d ≤ e) : powerOfTwo d ≤ powerOfTwo e :=
  zpow_le_zpow_right₀ (by norm_num) h

theorem powerOfTwo_lt_iff {d e : Int} : powerOfTwo d < powerOfTwo e ↔ d < e :=
  zpow_lt_zpow_iff_right₀ (by norm_num)

theorem powerOfTwo_natCast (n : Nat) : powerOfTwo n = ((2 ^ n : Nat) : Rat) := by
  rw [powerOfTwo, Rat.zpow_natCast, Nat.cast_pow]
  rfl

/-- A power of two is a whole number of smaller ones. -/
theorem powerOfTwo_div {d e : Int} (h : d ≤ e) :
    powerOfTwo e / powerOfTwo d = ((2 ^ (e - d).toNat : Nat) : Int) := by
  have hsum : ((e - d).toNat : Int) + d = e := by omega
  have hadd := powerOfTwo_add (e - d).toNat d
  rw [hsum, powerOfTwo_natCast] at hadd
  -- The quotient is the power that the exponents differ by.
  rw [hadd, mul_div_cancel_right₀ _ (ne_of_gt (powerOfTwo_pos d))]
  norm_cast

/-- The lengths of numerator and denominator leave two orders of magnitude. -/
theorem between_lengths {x : Rat} (hx : 0 < x) :
    powerOfTwo ((x.num.natAbs.log2 : Int) - x.den.log2 - 1) < x ∧
      x < powerOfTwo ((x.num.natAbs.log2 : Int) - x.den.log2 + 1) := by
  have hnum : 0 < x.num := Rat.num_pos.mpr hx
  have hden : 0 < x.den := x.den_pos
  have hvalue : x = (x.num.natAbs : Rat) / x.den := by
    have habs : ((x.num.natAbs : Int) : Rat) = x.num := by
      rw [Int.natAbs_of_nonneg (le_of_lt hnum)]
    rw [← Int.cast_natCast, habs, Rat.num_div_den]
  have ha := Nat.log2_self_le (n := x.num.natAbs) (by omega)
  have ha' := Nat.lt_log2_self (n := x.num.natAbs)
  have hb := Nat.log2_self_le (n := x.den) (by omega)
  have hb' := Nat.lt_log2_self (n := x.den)
  -- From here on it is a quotient of two numbers of known length.
  generalize x.num.natAbs = a at hvalue ha ha' ⊢
  generalize x.den = b at hden hvalue hb hb' ⊢
  have hbpos : (0 : Rat) < b := by exact_mod_cast hden
  -- The bounds are exact once the denominator is replaced by a power of two.
  have hlow : powerOfTwo ((a.log2 : Int) - b.log2 - 1) * powerOfTwo (b.log2 + 1 : Nat) =
      powerOfTwo (a.log2 : Nat) := by
    rw [← powerOfTwo_add]
    congr 1
    omega
  have hhigh : powerOfTwo ((a.log2 : Int) - b.log2 + 1) * powerOfTwo (b.log2 : Nat) =
      powerOfTwo (a.log2 + 1 : Nat) := by
    rw [← powerOfTwo_add]
    congr 1
    omega
  rw [powerOfTwo_natCast, powerOfTwo_natCast] at hlow hhigh
  have hpos := powerOfTwo_pos ((a.log2 : Int) - b.log2 - 1)
  have hpos' := powerOfTwo_pos ((a.log2 : Int) - b.log2 + 1)
  have ha : ((2 ^ a.log2 : Nat) : Rat) ≤ a := by exact_mod_cast ha
  have ha' : (a : Rat) < ((2 ^ (a.log2 + 1) : Nat) : Rat) := by exact_mod_cast ha'
  have hb : ((2 ^ b.log2 : Nat) : Rat) ≤ b := by exact_mod_cast hb
  have hb' : (b : Rat) < ((2 ^ (b.log2 + 1) : Nat) : Rat) := by exact_mod_cast hb'
  rw [hvalue]
  refine ⟨(lt_div_iff₀ hbpos).mpr ?_, (div_lt_iff₀ hbpos).mpr ?_⟩
  · calc powerOfTwo ((a.log2 : Int) - b.log2 - 1) * b
        < powerOfTwo ((a.log2 : Int) - b.log2 - 1) * ((2 ^ (b.log2 + 1) : Nat) : Rat) :=
          mul_lt_mul_of_pos_left hb' hpos
      _ = ((2 ^ a.log2 : Nat) : Rat) := hlow
      _ ≤ a := ha
  · calc (a : Rat) < ((2 ^ (a.log2 + 1) : Nat) : Rat) := ha'
      _ = powerOfTwo ((a.log2 : Int) - b.log2 + 1) * ((2 ^ b.log2 : Nat) : Rat) := hhigh.symm
      _ ≤ powerOfTwo ((a.log2 : Int) - b.log2 + 1) * b :=
          mul_le_mul_of_nonneg_left hb (le_of_lt hpos')

/-- The binary order of magnitude is the exponent of the power of two below. -/
theorem binaryOrder_spec {x : Rat} (hx : 0 < x) :
    powerOfTwo (binaryOrder x) ≤ x ∧ x < powerOfTwo (binaryOrder x + 1) := by
  rcases between_lengths hx with ⟨hlow, hhigh⟩
  rw [binaryOrder]
  -- The middle power of the three decides which of the two orders it is.
  by_cases h : powerOfTwo ((x.num.natAbs.log2 : Int) - x.den.log2) ≤ x
  · rw [if_pos h]
    exact ⟨h, hhigh⟩
  · rw [if_neg h, Int.sub_add_cancel]
    exact ⟨le_of_lt hlow, not_le.mp h⟩

/-- No two orders fit a magnitude. -/
theorem binaryOrder_unique {x : Rat} {k : Int} (hlow : powerOfTwo k ≤ x)
    (hhigh : x < powerOfTwo (k + 1)) : binaryOrder x = k := by
  rcases binaryOrder_spec (lt_of_lt_of_le (powerOfTwo_pos k) hlow) with ⟨hlow', hhigh'⟩
  have h1 := powerOfTwo_lt_iff.mp (lt_of_le_of_lt hlow hhigh')
  have h2 := powerOfTwo_lt_iff.mp (lt_of_le_of_lt hlow' hhigh)
  omega

theorem binaryOrder_mono {x y : Rat} (hx : 0 < x) (h : x ≤ y) : binaryOrder x ≤ binaryOrder y := by
  have hlow := (binaryOrder_spec hx).1
  have hhigh := (binaryOrder_spec (lt_of_lt_of_le hx h)).2
  -- The power below the smaller is below the larger as well.
  have hlt := powerOfTwo_lt_iff.mp (lt_of_le_of_lt (le_trans hlow h) hhigh)
  omega

/-- The nearest integer is the one below or the next. -/
theorem nearestInt_cases (x : Rat) :
    nearestInt x = x.floor ∨ nearestInt x = x.floor + 1 := by
  rw [nearestInt]
  split
  · exact Or.inl rfl
  · split
    · exact Or.inr rfl
    · split
      · exact Or.inl rfl
      · exact Or.inr rfl

theorem nearestInt_intCast (n : Int) : nearestInt n = n := by
  have hzero : 2 * ((n : Rat) - n) < 1 := by
    rw [sub_self, mul_zero]
    norm_num
  rw [nearestInt]
  simp only [Rat.floor_intCast]
  rw [if_pos hzero]

/-- The nearest integer keeps order. -/
theorem nearestInt_mono {x y : Rat} (h : x ≤ y) : nearestInt x ≤ nearestInt y := by
  have hfloor := Rat.floor_monotone h
  by_cases hlt : x.floor < y.floor
  -- The nearest integers are the floors or one above, so at worst they meet.
  · have hx := nearestInt_cases x
    have hy := nearestInt_cases y
    omega
  · -- Between the same two integers, the larger one is not nearer to the lower.
    have heq : x.floor = y.floor := by omega
    have htwice : 2 * (x - y.floor) ≤ 2 * (y - y.floor) := by linarith
    rw [nearestInt, nearestInt]
    simp only [heq]
    -- Below a half the smaller goes down, and nothing is lower than that.
    by_cases h1 : 2 * (x - y.floor) < 1
    · rw [if_pos h1]
      split
      · exact le_refl _
      · split
        · omega
        · split
          · exact le_refl _
          · omega
    · rw [if_neg h1, if_neg (by linarith : ¬ 2 * (y - y.floor) < 1)]
      -- Above a half both go up. At a half it is the parity of the floor that decides for
      -- both.
      by_cases h2 : 1 < 2 * (x - y.floor)
      · rw [if_pos h2, if_pos (by linarith : 1 < 2 * (y - y.floor))]
      · rw [if_neg h2]
        by_cases h3 : 1 < 2 * (y - y.floor)
        · rw [if_pos h3]
          split
          · omega
          · exact le_refl _
        · rw [if_neg h3]

theorem nearestInt_le {x : Rat} {n : Int} (h : x ≤ n) : nearestInt x ≤ n := by
  have hle := nearestInt_mono h
  rw [nearestInt_intCast] at hle
  exact hle

theorem le_nearestInt {x : Rat} {n : Int} (h : n ≤ x) : n ≤ nearestInt x := by
  have hle := nearestInt_mono h
  rw [nearestInt_intCast] at hle
  exact hle

theorem spacing_pos (x : Rat) : 0 < spacing x := powerOfTwo_pos _

theorem round_zero : round 0 = 0 := by
  have hzero : (0 : Rat) / spacing 0 = ((0 : Int) : Rat) := by
    rw [zero_div, Int.cast_zero]
  rw [round, hzero, nearestInt_intCast, Int.cast_zero, zero_mul]

theorem round_nonneg {x : Rat} (hx : 0 ≤ x) : 0 ≤ round x := by
  have hquot : ((0 : Int) : Rat) ≤ x / spacing x := by
    rw [Int.cast_zero]
    exact div_nonneg hx (le_of_lt (spacing_pos x))
  have hint : (0 : Rat) ≤ nearestInt (x / spacing x) := by
    exact_mod_cast le_nearestInt hquot
  exact mul_nonneg hint (le_of_lt (spacing_pos x))

/-- A power of two on the grid of a magnitude is not rounded across from below. -/
theorem round_le_powerOfTwo {x : Rat} {e : Int} (h : x ≤ powerOfTwo e)
    (hgrid : spacingExponent x ≤ e) : round x ≤ powerOfTwo e := by
  have hquot : x / spacing x ≤ ((2 ^ (e - spacingExponent x).toNat : Nat) : Int) := by
    rw [← powerOfTwo_div hgrid]
    exact div_le_div_of_nonneg_right h (le_of_lt (spacing_pos x))
  -- In units of the grid the power is a whole number, and those bound the nearest one.
  have hint : (nearestInt (x / spacing x) : Rat) ≤ powerOfTwo e / spacing x := by
    rw [spacing, powerOfTwo_div hgrid]
    exact_mod_cast nearestInt_le hquot
  exact (le_div_iff₀ (spacing_pos x)).mp hint

/-- Nor from above. -/
theorem powerOfTwo_le_round {x : Rat} {e : Int} (h : powerOfTwo e ≤ x)
    (hgrid : spacingExponent x ≤ e) : powerOfTwo e ≤ round x := by
  have hquot : (((2 ^ (e - spacingExponent x).toNat : Nat) : Int) : Rat) ≤ x / spacing x := by
    rw [← powerOfTwo_div hgrid]
    exact div_le_div_of_nonneg_right h (le_of_lt (spacing_pos x))
  have hint : powerOfTwo e / spacing x ≤ (nearestInt (x / spacing x) : Rat) := by
    rw [spacing, powerOfTwo_div hgrid]
    exact_mod_cast le_nearestInt hquot
  exact (div_le_iff₀ (spacing_pos x)).mp hint

/-- Rounding keeps order. -/
theorem round_mono {x y : Rat} (hx : 0 < x) (h : x ≤ y) : round x ≤ round y := by
  have hy := lt_of_lt_of_le hx h
  have horder := binaryOrder_mono hx h
  by_cases hgrid : spacingExponent x = spacingExponent y
  · -- On one grid it is a matter of the nearest integer.
    have hspacing : spacing x = spacing y := by rw [spacing, spacing, hgrid]
    have hquot : x / spacing y ≤ y / spacing y :=
      div_le_div_of_nonneg_right h (le_of_lt (spacing_pos y))
    have hint : (nearestInt (x / spacing y) : Rat) ≤ nearestInt (y / spacing y) := by
      exact_mod_cast nearestInt_mono hquot
    rw [round, round, hspacing]
    exact mul_le_mul_of_nonneg_right hint (le_of_lt (spacing_pos y))
  · -- The power of two below `y` lies on both grids and not below `x`.
    have hlt : binaryOrder x < binaryOrder y := by
      rcases Int.lt_or_eq_of_le horder with hlt | heq
      · exact hlt
      · rw [spacingExponent, spacingExponent, heq] at hgrid
        exact absurd rfl hgrid
    rw [spacingExponent, spacingExponent] at hgrid
    have hbetween : x ≤ powerOfTwo (binaryOrder y) :=
      le_of_lt (lt_of_lt_of_le (binaryOrder_spec hx).2 (powerOfTwo_le (by omega)))
    calc round x ≤ powerOfTwo (binaryOrder y) :=
          round_le_powerOfTwo hbetween (by rw [spacingExponent]; omega)
      _ ≤ round y :=
          powerOfTwo_le_round (binaryOrder_spec hy).1 (by rw [spacingExponent]; omega)

/-- Rounding keeps order from zero on, which has no order of magnitude itself. -/
theorem round_mono_of_nonneg {x y : Rat} (hx : 0 ≤ x) (h : x ≤ y) : round x ≤ round y := by
  rcases eq_or_lt_of_le hx with hzero | hpos
  · rw [← hzero, round_zero]
    exact round_nonneg (le_trans hx h)
  · exact round_mono hpos h

/-- A double that is not exceeded is not exceeded after rounding either. -/
theorem round_le {x y : Rat} (hx : 0 ≤ x) (h : x ≤ y) (hy : round y = y) : round x ≤ y := by
  rcases eq_or_lt_of_le hx with hzero | hpos
  · rw [← hzero, round_zero, hzero]
    exact h
  · rw [← hy]
    exact round_mono hpos h

/-- Rounding on a grid that is known. -/
theorem round_eq {x : Rat} {e : Int} (h : spacingExponent x = e) :
    round x = nearestInt (x / powerOfTwo e) * powerOfTwo e := by
  rw [round, spacing, h]

end Binary64

end Stencil
