import Stencil.Proofs.Number.Closeness
import Stencil.Proofs.Number.Reduction

/-!
# Splits Keep Order

Of two magnitudes the larger never has digits that make up the smaller number,
whichever form each of them takes. The numbers are compared in whole units of the
ninth fraction digit, which spares all thought of the carry.

In one form it is a matter of rounding, and every rounding there keeps order.
Where the integral parts differ, a full fraction on the smaller side makes the next
whole number, and the larger side is not below that.

Forms with an exponent are compared by the exponent first. A significand is at least
one and at most ten, so what one exponent can reach is where the next begins. Ten as a
significand does no harm here: it denotes the same number as one with the next
exponent.

Plain form meets the other two at the thresholds. Small numbers stop at `10^(-5)` and
numbers in plain form begin there, although the threshold itself lies a little above,
because nine fraction digits do not show the difference. The upper threshold is exact.

## Main definitions

* `Split.units`: A significand in units of the ninth fraction digit.
* `Scientific.Digit`: A significand between one and ten.
* `Scientific.Before`: A form comes before another.

## Theorems

* `Split.units_mono`: Units keep order.
* `Split.denoted_mono_of_before`: So do forms with an exponent.
* `Split.ofFields_denoted_mono`: So do all splits.
* `Split.denoted_mono`: The same for bit patterns.
-/

namespace Stencil

namespace Scientific

/-- A form with a significand between one and ten. -/
structure Digit (form : Form) : Prop where
  one_le : 1 ≤ form.significand
  le_ten : form.significand ≤ 10

/-- A form has the smaller exponent, or the same exponent and no larger a
    significand. -/
def Before (form other : Form) : Prop :=
  form.exponent < other.exponent ∨
    (form.exponent = other.exponent ∧ form.significand ≤ other.significand)

end Scientific

namespace Split

open Binary64 Scientific

theorem truncate_mono {x y : Rat} (h : x ≤ y) : truncate x ≤ truncate y := by
  have hfloor := Rat.floor_monotone h
  rw [truncate, truncate]
  omega

theorem truncate_le_halfUp (y : Rat) : truncate y ≤ halfUp y := by
  rw [halfUp]
  split
  · exact Nat.le_succ _
  · exact le_refl _

theorem halfUp_le_succ (y : Rat) : halfUp y ≤ truncate y + 1 := by
  rw [halfUp]
  split
  · exact le_refl _
  · exact Nat.le_succ _

section Order

variable {x y : Rat} (hx : 0 ≤ x) (h : x ≤ y) (hword : y ≤ largestWord)

include hx h hword

/-- Rounding half up keeps order. Between different whole numbers one step is never
    made up for, and from the same whole number it is made by the larger first. -/
theorem halfUp_mono : halfUp x ≤ halfUp y := by
  rcases Nat.lt_or_eq_of_le (truncate_mono h) with hless | hsame
  -- Rounding adds one at most, and the whole numbers are one apart at least.
  · exact le_trans (halfUp_le_succ x) (le_trans hless (truncate_le_halfUp y))
  · -- Between the same two whole numbers the larger is not farther from the upper one.
    rw [halfUp]
    split
    · next hup =>
        have hdifference := round_mono_of_nonneg
          (sub_nonneg.mpr (truncate_bounds hx (le_trans h hword)).1)
          (sub_le_sub_right h (truncate x : Rat))
        rw [halfUp, ← hsame, if_pos (le_trans hup hdifference)]
    · rw [hsame]
      exact truncate_le_halfUp y

theorem scaledFraction_mono (hsame : truncate x = truncate y) :
    scaledFraction x ≤ scaledFraction y := by
  have hlow := sub_nonneg.mpr (truncate_bounds hx (le_trans h hword)).1
  have hdifference := round_mono_of_nonneg hlow (sub_le_sub_right h (truncate x : Rat))
  have hscale : (0 : Rat) ≤ fractionScale := Nat.cast_nonneg _
  -- Subtracting and scaling are each rounded, and rounding keeps order both times.
  rw [scaledFraction, scaledFraction, ← hsame]
  exact round_mono_of_nonneg (mul_nonneg (Binary64.round_nonneg hlow) hscale)
    (mul_le_mul_of_nonneg_right hdifference hscale)

end Order

/-- A significand in units of the ninth fraction digit. -/
def units (x : Rat) : Nat := truncate x * fractionScale + halfUp (scaledFraction x)

/-- A fraction makes a whole at most. -/
theorem units_le {x : Rat} (hx : 0 ≤ x) (hword : x ≤ largestWord) :
    units x ≤ (truncate x + 1) * fractionScale := by
  rcases scaledFraction_bounds hx hword with ⟨hnonneg, hle⟩
  have hfraction : halfUp (scaledFraction x) ≤ fractionScale :=
    halfUp_le hnonneg (scaledFraction_le_word hx hword) (by rw [cast_fractionScale]; exact hle)
  rw [units, Nat.succ_mul]
  exact Nat.add_le_add_left hfraction _

/-- Units keep order. -/
theorem units_mono {x y : Rat} (hx : 0 ≤ x) (h : x ≤ y) (hword : y ≤ largestWord) :
    units x ≤ units y := by
  have hword' := le_trans h hword
  rcases Nat.lt_or_eq_of_le (truncate_mono h) with hless | hsame
  -- All that a fraction can add is no more than the next whole number is worth.
  · calc units x ≤ (truncate x + 1) * fractionScale := units_le hx hword'
      _ ≤ truncate y * fractionScale := Nat.mul_le_mul_right _ hless
      _ ≤ units y := Nat.le_add_right _ _
  -- The whole numbers are the same, so the fractions decide.
  · have hfraction := halfUp_mono (scaledFraction_bounds hx hword').1
      (scaledFraction_mono hx h hword hsame) (scaledFraction_le_word (le_trans hx h) hword)
    rw [units, units, hsame]
    exact Nat.add_le_add_left hfraction _

theorem units_natCast {n : Nat} (hn : n ≤ largestWord) : units n = n * fractionScale := by
  have htruncate : truncate n = n :=
    truncate_eq (le_refl _) (by exact_mod_cast Nat.lt_succ_self n) hn
  -- A whole number has no fraction that could be rounded up.
  have hnone : halfUp 0 = 0 := by
    rw [halfUp, truncate_zero, Nat.cast_zero, sub_zero, Binary64.round_zero]
    exact if_neg (by norm_num)
  rw [units, htruncate, scaledFraction_whole (by rw [htruncate]), hnone, Nat.add_zero]

theorem denoted_eq_units {form : Form} (hlow : 0 ≤ form.significand)
    (hword : form.significand ≤ largestWord) (hdigit : form.exponent = 0 ∨ form.significand ≤ 10) :
    (ofForm form).denoted = (units form.significand : Rat) / 10 ^ 9 * 10 ^ form.exponent := by
  rw [denoted_ofForm hlow hword hdigit, units, ← cast_fractionScale]
  push_cast
  rw [add_div, mul_div_cancel_right₀]
  rw [cast_fractionScale]
  norm_num

theorem le_word_of_digit {form : Form} (h : Digit form) : form.significand ≤ largestWord :=
  le_trans h.le_ten (by norm_num [largestWord])

theorem le_word_of_plain {x : Rat} (h : x < upperThreshold) : x ≤ largestWord := by
  rw [upperThreshold_eq_pow] at h
  exact le_trans (le_of_lt h) (by norm_num [largestWord])

theorem denoted_nonneg (s : Split) : 0 ≤ s.denoted := by
  rw [denoted]
  positivity

section Exponent

variable {form other : Form}

theorem denoted_digit (hform : Digit form) :
    (ofForm form).denoted = (units form.significand : Rat) / 10 ^ 9 * 10 ^ form.exponent :=
  denoted_eq_units (le_trans zero_le_one hform.one_le) (le_word_of_digit hform)
    (Or.inr hform.le_ten)

/-- A digit in front of the point is worth its power of ten at least, and the next one
    at most. -/
theorem denoted_bounds (hform : Digit form) :
    10 ^ form.exponent ≤ (ofForm form).denoted ∧
      (ofForm form).denoted ≤ 10 ^ (form.exponent + 1) := by
  have hpos := ten_zpow_pos form.exponent
  have hone := units_natCast (show 1 ≤ largestWord by decide)
  have hten := units_natCast (show 10 ≤ largestWord by decide)
  rw [Nat.cast_one, show (1 * fractionScale : Nat) = 10 ^ 9 by decide] at hone
  rw [Nat.cast_ofNat, show (10 * fractionScale : Nat) = 10 ^ 10 by decide] at hten
  -- One and ten are whole, and units keep order, so the units lie between theirs.
  have hlow := units_mono zero_le_one hform.one_le (le_word_of_digit hform)
  have hhigh := units_mono (le_trans zero_le_one hform.one_le) hform.le_ten
    (by norm_num [largestWord])
  rw [hone] at hlow
  rw [hten] at hhigh
  have hlow : (10 : Rat) ^ 9 ≤ units form.significand := by exact_mod_cast hlow
  have hhigh : (units form.significand : Rat) ≤ 10 ^ 10 := by exact_mod_cast hhigh
  -- Both sides are multiples of the same power of ten.
  rw [denoted_digit hform, zpow_add_one₀ (by norm_num : (10 : Rat) ≠ 0), mul_comm (10 ^ _ : Rat)]
  refine ⟨le_mul_of_one_le_left (le_of_lt hpos) ?_, mul_le_mul_of_nonneg_right ?_ (le_of_lt hpos)⟩
  · rw [one_le_div (by norm_num)]
    exact hlow
  · rw [div_le_iff₀ (by norm_num)]
    linarith

/-- Forms with an exponent keep order. -/
theorem denoted_mono_of_before (hform : Digit form) (hother : Digit other)
    (h : Before form other) : (ofForm form).denoted ≤ (ofForm other).denoted := by
  rcases h with hless | ⟨hsame, hle⟩
  · -- What the smaller exponent can reach is where the next one begins.
    calc (ofForm form).denoted ≤ 10 ^ (form.exponent + 1) := (denoted_bounds hform).2
      _ ≤ 10 ^ other.exponent := zpow_le_zpow_right₀ (by norm_num) (by omega)
      _ ≤ (ofForm other).denoted := (denoted_bounds hother).1
  · have hunits : (units form.significand : Rat) ≤ units other.significand := by
      exact_mod_cast units_mono (le_trans zero_le_one hform.one_le) hle (le_word_of_digit hother)
    -- With one exponent the units decide.
    rw [denoted_digit hform, denoted_digit hother, hsame]
    exact mul_le_mul_of_nonneg_right (div_le_div_of_nonneg_right hunits (by norm_num))
      (le_of_lt (ten_zpow_pos _))

end Exponent

/-! ## Small numbers -/

/-- Enlarging a small number ends at a digit: the fields of the significand lie
    between those of one and those of ten. -/
theorem small_form {n : Nat} (hn : 0 < n) (hsmall : n ≤ lowest) :
    Digit (Scientific.normalize (ofFields n)) := by
  rcases small_bounds hn hsmall with ⟨hlow, hhigh⟩
  rw [normalize_ofFields hn hsmall]
  refine ⟨?_, ?_⟩
  · rw [← ofFields_one, ofFields_strictMono.le_iff_le]
    exact hlow
  · rw [← ofFields_ten, ofFields_strictMono.le_iff_le]
    exact hhigh

/-- Of two small numbers the larger never ends before the smaller, as fields keep
    order through every step of the enlargement. -/
theorem before_small {n m : Nat} (hn : 0 < n) (h : n ≤ m) (hm : m ≤ lowest) :
    Before (Scientific.normalize (ofFields n)) (Scientific.normalize (ofFields m)) := by
  rw [normalize_ofFields hn (le_trans h hm), normalize_ofFields (lt_of_lt_of_le hn h) hm]
  -- The steps that are taken make the exponent, and the larger number takes no more of
  -- them.
  rcases small_lex hn h with hless | ⟨hsame, hle⟩
  · exact Or.inl (by simp only; omega)
  · exact Or.inr ⟨by simp only [hsame], ofFields_strictMono.monotone hle⟩

theorem small_mono {n m : Nat} (hn : 0 < n) (h : n ≤ m) (hm : m ≤ lowest) :
    (ofMagnitude (ofFields n)).denoted ≤ (ofMagnitude (ofFields m)).denoted :=
  denoted_mono_of_before (small_form hn (le_trans h hm)) (small_form (lt_of_lt_of_le hn h) hm)
    (before_small hn h hm)

theorem denoted_lowest : (ofMagnitude (ofFields lowest)).denoted = 10 ^ (-5 : Int) := by
  decide +kernel

theorem small_le {n : Nat} (hn : 0 < n) (hsmall : n ≤ lowest) :
    (ofMagnitude (ofFields n)).denoted ≤ 10 ^ (-5 : Int) := by
  have hle := small_mono hn hsmall (le_refl lowest)
  rwa [denoted_lowest] at hle

/-! ## Large numbers -/

/-- Of two large numbers the larger never ends before the smaller: every step of the
    reduction is taken by the larger if it is taken by the smaller. -/
theorem before_large {x y : Rat} (hx : upperThreshold ≤ x) (h : x ≤ y) :
    Before (Scientific.normalize x) (Scientific.normalize y) := by
  have hpos : 0 < x := by
    rw [upperThreshold_eq_pow] at hx
    linarith
  rw [normalize_large hx, normalize_large (le_trans hx h)]
  exact foldl_reduce_lex steps_nonneg outweighs_steps hpos h 0

theorem large_digit_form {n : Nat} (hn : n < 0x7FF * leadingOne)
    (h : upperThreshold ≤ ofFields n) : Digit (Scientific.normalize (ofFields n)) :=
  ⟨(large_form hn h).one_le, le_of_lt (large_form hn h).lt_ten⟩

/-- A large number is still denoted as one: its exponent is seven at least, and the
    digit in front of the point is not zero. -/
theorem large_ge {n : Nat} (hn : n < 0x7FF * leadingOne) (h : upperThreshold ≤ ofFields n) :
    10 ^ 7 ≤ (ofMagnitude (ofFields n)).denoted := by
  have hexponent := (large_form hn h).exponent_ge
  calc (10 : Rat) ^ 7 = 10 ^ (7 : Int) := rfl
    _ ≤ 10 ^ (Scientific.normalize (ofFields n)).exponent :=
        zpow_le_zpow_right₀ (by norm_num) hexponent
    _ ≤ (ofMagnitude (ofFields n)).denoted := (denoted_bounds (large_digit_form hn h)).1

/-! ## Numbers in plain form -/

theorem denoted_plain {x : Rat} (hx : 0 ≤ x) (hupper : x < upperThreshold)
    (hlower : x = 0 ∨ lowerThreshold < x) :
    (ofMagnitude x).denoted = (units x : Rat) / 10 ^ 9 := by
  rw [ofMagnitude, normalize_plain hupper hlower,
    denoted_eq_units hx (le_word_of_plain hupper) (Or.inl rfl), zpow_zero, mul_one]

section Plain

variable {x : Rat} (hlower : lowerThreshold < x)

include hlower

/-- In plain form a number stays between the powers of ten at the thresholds. Units
    keep order, and the units of the thresholds are known. -/
theorem plain_bounds (hupper : x < upperThreshold) :
    10 ^ (-5 : Int) ≤ (ofMagnitude x).denoted ∧ (ofMagnitude x).denoted ≤ 10 ^ 7 := by
  have hthreshold := le_of_lt lowerThreshold_pos
  -- The lower threshold is no whole number, so its units have to be computed.
  have hlow : units lowerThreshold = 10 ^ 4 := by decide +kernel
  have hhigh := units_natCast (show 10 ^ 7 ≤ largestWord by decide)
  have hscaled : 10 ^ 7 * fractionScale = 10 ^ 16 := by decide
  rw [Nat.cast_pow, Nat.cast_ofNat, hscaled] at hhigh
  have hpos := le_trans hthreshold (le_of_lt hlower)
  have hle := le_of_lt hupper
  rw [upperThreshold_eq_pow] at hle
  -- The number lies between the thresholds, and so do its units between theirs.
  have hlow' := units_mono hthreshold (le_of_lt hlower) (le_word_of_plain hupper)
  have hhigh' := units_mono hpos hle (by norm_num [largestWord])
  rw [hlow] at hlow'
  rw [hhigh] at hhigh'
  have hlow' : (10 : Rat) ^ 4 ≤ units x := by exact_mod_cast hlow'
  have hhigh' : (units x : Rat) ≤ 10 ^ 16 := by exact_mod_cast hhigh'
  rw [denoted_plain hpos hupper (Or.inr hlower)]
  -- Ten to the ninth units make one.
  refine ⟨?_, ?_⟩
  · rw [le_div_iff₀ (by norm_num)]
    norm_num
    linarith
  · rw [div_le_iff₀ (by norm_num)]
    linarith

/-- In plain form order is the order of the units. -/
theorem plain_mono {y : Rat} (h : x ≤ y) (hupper : y < upperThreshold) :
    (ofMagnitude x).denoted ≤ (ofMagnitude y).denoted := by
  have hpos := le_of_lt (lt_trans lowerThreshold_pos hlower)
  have hunits : (units x : Rat) ≤ units y := by
    exact_mod_cast units_mono hpos h (le_word_of_plain hupper)
  rw [denoted_plain hpos (lt_of_le_of_lt h hupper) (Or.inr hlower),
    denoted_plain (le_trans hpos h) hupper (Or.inr (lt_of_lt_of_le hlower h))]
  exact div_le_div_of_nonneg_right hunits (by norm_num)

end Plain

/-- Splits keep order. -/
theorem ofFields_denoted_mono {n m : Nat} (hm : m < 0x7FF * leadingOne) (h : n ≤ m) :
    (ofMagnitude (ofFields n)).denoted ≤ (ofMagnitude (ofFields m)).denoted := by
  have hle := ofFields_strictMono.monotone h
  -- What is not small is above the lower threshold, the doubles being numbered in order.
  have habove : ∀ {k : Nat}, ¬ k ≤ lowest → lowerThreshold < ofFields k := by
    intro k hk
    rw [lowerThreshold_eq, ofFields_strictMono.lt_iff_lt]
    omega
  -- Zero is not enlarged and has to be taken by itself.
  rcases Nat.eq_zero_or_pos n with rfl | hn
  · have hzero : (ofMagnitude (ofFields 0)).denoted = 0 := by decide +kernel
    rw [hzero]
    exact denoted_nonneg _
  · by_cases hsmall : n ≤ lowest
    · by_cases hsmall' : m ≤ lowest
      · exact small_mono hn h hsmall'
      · -- Across the lower threshold, or across both.
        refine le_trans (small_le hn hsmall) ?_
        by_cases hlarge : upperThreshold ≤ ofFields m
        · exact le_trans (by norm_num) (large_ge hm hlarge)
        · exact (plain_bounds (habove hsmall') (not_le.mp hlarge)).1
    · by_cases hlarge : upperThreshold ≤ ofFields m
      · by_cases hlarge' : upperThreshold ≤ ofFields n
        · exact denoted_mono_of_before (large_digit_form (lt_of_le_of_lt h hm) hlarge')
            (large_digit_form hm hlarge) (before_large hlarge' hle)
        · -- Across the upper threshold.
          exact le_trans (plain_bounds (habove hsmall) (not_le.mp hlarge')).2 (large_ge hm hlarge)
      · exact plain_mono (habove hsmall) hle (not_le.mp hlarge)

/-- A double that is not below zero is split as its magnitude, a zero with a sign
    included. -/
theorem ofDouble_of_not_negative {negative : Bool} {v : Rat}
    (h : isNegative (.finite negative v) = false) :
    ofDouble (.finite negative v) = ofMagnitude v := by
  cases negative with
  | false => rfl
  | true =>
      -- Only a zero can have the sign without being negative.
      rw [isNegative, Bool.true_and, decide_eq_false_iff_not, not_not] at h
      rw [h]
      decide +kernel

/-- Of two doubles that are not below zero, the larger never has digits that make up
    the smaller number. -/
theorem denoted_mono (bits bits' : BitVec 64) (negative negative' : Bool) (v w : Rat)
    (hbits : ofBits bits = .finite negative v) (hbits' : ofBits bits' = .finite negative' w)
    (hsign : isNegative (ofBits bits) = false) (hsign' : isNegative (ofBits bits') = false)
    (h : v ≤ w) : (ofDouble (ofBits bits)).denoted ≤ (ofDouble (ofBits bits')).denoted := by
  rcases exists_ofFields_of_ofBits hbits with ⟨n, -, rfl⟩
  rcases exists_ofFields_of_ofBits hbits' with ⟨m, hm, rfl⟩
  rw [hbits] at hsign ⊢
  rw [hbits'] at hsign' ⊢
  -- Doubles that are not negative are compared by their fields.
  rw [ofFields_strictMono.le_iff_le] at h
  rw [ofDouble_of_not_negative hsign, ofDouble_of_not_negative hsign']
  exact ofFields_denoted_mono hm h

/-- The double below the lower threshold has ten in front of the point, and the one
    above it has no exponent. -/
theorem denoted_mono_threshold :
    (ofDouble (ofBits 0x3EE4F8B588E368F0)).denoted ≤
        (ofDouble (ofBits 0x3EE4F8B588E368F2)).denoted ∧
      ofDouble (ofBits 0x3EE4F8B588E368F0) = ⟨10, 0, -6⟩ ∧
      ofDouble (ofBits 0x3EE4F8B588E368F2) = ⟨0, 10000, 0⟩ :=
  ⟨denoted_mono _ _ false false (ofFields 0x3EE4F8B588E368F0) (ofFields 0x3EE4F8B588E368F2)
      (by decide +kernel) (by decide +kernel) (by decide +kernel) (by decide +kernel)
      (by decide +kernel),
    by decide +kernel, by decide +kernel⟩

end Split

end Stencil
