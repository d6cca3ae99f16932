import Stencil.Number.Split
import Stencil.Proofs.Number.Tens

/-!
# The Digits of Small Numbers

A small number is printed with one digit in front of the point, except where
normalizing leaves a significand of ten. Then there are two digits, and one
magnitude has two spellings, with ten and with one in front. The carry out of
the fraction digits takes care of a ten that it makes, but a significand of ten
has no fraction that could carry.

That is the only way for things to go wrong, so the doubles with two digits are
those that reach ten. All others have one digit, which is not zero, and the
exponent is in range for every small double.

## Theorems

* `Split.carry_cases`: What the carry can do to integral part and exponent.
* `Split.ofForm_ten`: A significand of ten is not carried.
* `Split.small_digit_iff`: Which small doubles have one digit.
* `Split.two_spellings`: A small double with two digits.
-/

namespace Stencil

namespace Split

open Binary64 Scientific

/-- The truncation of what lies between two whole numbers is the lower one, if it fits
    its word. -/
theorem truncate_eq {x : Rat} {n : Nat} (hlow : (n : Rat) ≤ x) (hhigh : x < ((n + 1 : Nat) : Rat))
    (hword : n ≤ largestWord) : truncate x = n := by
  have hfloor : x.floor = n := by
    have h1 : (n : Int) ≤ x.floor := Rat.le_floor_iff.mpr (by exact_mod_cast hlow)
    have h2 : x.floor < ((n + 1 : Nat) : Int) := Rat.floor_lt_iff.mpr (by exact_mod_cast hhigh)
    omega
  rw [truncate, hfloor, Int.toNat_natCast, Nat.min_eq_left hword]

/-- A significand from one up to ten has a leading digit. -/
theorem truncate_digit {x : Rat} (hlow : 1 ≤ x) (hhigh : x < 10) :
    1 ≤ truncate x ∧ truncate x ≤ 9 := by
  have h1 : 1 ≤ x.floor := Rat.le_floor_iff.mpr (by exact_mod_cast hlow)
  have h2 : x.floor < 10 := Rat.floor_lt_iff.mpr (by exact_mod_cast hhigh)
  have hword : largestWord = 4294967295 := rfl
  rw [truncate, hword]
  omega

/-- The carry leaves integral part and exponent alone, or counts one of them up:
    the integral part unless it would become ten in scientific form, and then
    the exponent. -/
theorem carry_cases (s : Split) :
    (s.carry.integral = s.integral ∧ s.carry.exponent = s.exponent) ∨
      (s.carry.integral = s.integral + 1 ∧ s.carry.exponent = s.exponent ∧
        (s.exponent = 0 ∨ s.integral + 1 < 10)) ∨
      (9 ≤ s.integral ∧ s.carry.integral = 1 ∧ s.carry.exponent = s.exponent + 1) := by
  rw [carry]
  split
  · exact Or.inl ⟨rfl, rfl⟩
  · split
    · rename_i hten
      exact Or.inr (Or.inr ⟨by omega, rfl, rfl⟩)
    · rename_i hten
      exact Or.inr (Or.inl ⟨rfl, rfl, by omega⟩)

/-- A form is cut off at the point, or counted up like the fraction behind it. -/
theorem ofForm_cases (form : Form) :
    ((ofForm form).integral = truncate form.significand ∧
        (ofForm form).exponent = form.exponent) ∨
      ((ofForm form).integral = truncate form.significand + 1 ∧
        (ofForm form).exponent = form.exponent ∧
        (form.exponent = 0 ∨ truncate form.significand + 1 < 10)) ∨
      (9 ≤ truncate form.significand ∧ (ofForm form).integral = 1 ∧
        (ofForm form).exponent = form.exponent + 1) := by
  rw [ofForm]
  split
  · exact carry_cases _
  · exact Or.inl ⟨rfl, rfl⟩

theorem truncate_zero : truncate 0 = 0 :=
  truncate_eq (by norm_num) (by norm_num) (Nat.zero_le _)

/-- A significand of ten has no fraction, so nothing is carried. -/
theorem ofForm_ten {form : Form} (h : form.significand = 10) : (ofForm form).integral = 10 := by
  have htruncate : truncate 10 = 10 :=
    truncate_eq (by norm_num) (by norm_num) (by decide : 10 ≤ largestWord)
  have hfraction : (10 : Rat) - (10 : Nat) = 0 := by norm_num
  have hhalf : ¬ (1 : Rat) / 2 ≤ 0 := by norm_num
  rw [ofForm, h]
  -- There is no fraction to scale and none to round up.
  simp only [htruncate, hfraction, Binary64.round_zero, zero_mul, truncate_zero, Nat.cast_zero,
    sub_zero]
  rw [if_neg hhalf]

/-- One digit stands in front of the point unless ten is reached, and the
    exponent is in range. -/
theorem small_split {n : Nat} (hn : 0 < n) (hsmall : n ≤ lowest) :
    (-324 ≤ (ofMagnitude (ofFields n)).exponent ∧ (ofMagnitude (ofFields n)).exponent ≤ -5) ∧
      1 ≤ (ofMagnitude (ofFields n)).integral ∧
      ((enlargeFields factors n 0).1 ≠ ten → (ofMagnitude (ofFields n)).integral ≤ 9) ∧
      ((enlargeFields factors n 0).1 = ten → (ofMagnitude (ofFields n)).integral = 10) := by
  rcases small_exponent hn hsmall with ⟨hleast, hmost⟩
  rcases small_bounds hn hsmall with ⟨hlow, hhigh⟩
  have hfive := le_one_of_exponent hn hsmall
  rw [ofMagnitude, normalize_ofFields hn hsmall]
  generalize enlargeFields factors n 0 = r at hleast hmost hlow hhigh hfive ⊢
  rcases r with ⟨left, used⟩
  simp only at hleast hmost hlow hhigh hfive ⊢
  have hone : 1 ≤ ofFields left := by
    rw [← ofFields_one, ofFields_strictMono.le_iff_le]
    exact hlow
  -- What the carry can have done is decided by the leading digit.
  have hcases := ofForm_cases ⟨ofFields left, -(used : Int)⟩
  simp only at hcases
  by_cases hten : left = ten
  · -- Ten is no significand of the threshold, so there is room for a carry.
    have hused : used ≠ 5 := by
      intro h
      have hle := hfive h
      rw [hten] at hle
      exact absurd hle (by decide)
    have hinteg : (ofForm ⟨ofFields left, -(used : Int)⟩).integral = 10 := by
      refine ofForm_ten ?_
      rw [hten, ofFields_ten]
    refine ⟨by omega, by omega, fun h => absurd hten h, fun _ => hinteg⟩
  · have hless : ofFields left < 10 := by
      rw [← ofFields_ten, ofFields_strictMono.lt_iff_lt]
      omega
    rcases truncate_digit hone hless with ⟨hdigit, hdigit'⟩
    -- With the exponent of the threshold the digit is one, and a carry stops at two.
    have hthreshold : used = 5 → truncate (ofFields left) = 1 := by
      intro h
      have hleft : left = one := Nat.le_antisymm (hfive h) hlow
      rw [hleft, ofFields_one]
      exact truncate_eq (by norm_num) (by norm_num) (by decide)
    refine ⟨by omega, by omega, fun _ => by omega, fun h => absurd h hten⟩

/-- Every small double has an exponent in range and a digit in front of the
    point that is not zero. It has one such digit exactly if it is none of the
    doubles listed, and ten in front of the point if it is. -/
theorem small_digit_iff (bits : BitVec 64) (v : Rat) (hbits : ofBits bits = .finite false v)
    (hpos : 0 < v) (hsmall : v ≤ lowerThreshold) :
    (-324 ≤ (ofDouble (ofBits bits)).exponent ∧ (ofDouble (ofBits bits)).exponent ≤ -5) ∧
      (1 ≤ (ofDouble (ofBits bits)).integral ∧ (ofDouble (ofBits bits)).integral ≤ 10) ∧
      ((ofDouble (ofBits bits)).integral ≤ 9 ↔
        ∀ p ∈ tens, nearPower p.1 ≠ bits.toNat + p.2) := by
  -- The bounds on the magnitude are bounds on the fields.
  have hfields := (ofBits_finite hbits).1
  have hn : 0 < bits.toNat := by
    rw [hfields, ← ofFields_zero, ofFields_strictMono.lt_iff_lt] at hpos
    exact hpos
  have hle : bits.toNat ≤ lowest := by
    rw [hfields, lowerThreshold_eq, ofFields_strictMono.le_iff_le] at hsmall
    exact hsmall
  have hiff := reaches_ten_iff hn hle
  rcases small_split hn hle with ⟨hexponent, hdigit, hbelow, hten⟩
  rw [hbits, ofDouble, hfields]
  by_cases hreached : (enlargeFields factors bits.toNat 0).1 = ten
  -- The doubles that reach ten are those listed, and they are not carried.
  · have hinteg := hten hreached
    refine ⟨hexponent, by omega, iff_of_false (by omega) ?_⟩
    intro hnone
    rcases hiff.mp hreached with ⟨p, hp, hplace⟩
    exact hnone p hp hplace
  · have hinteg := hbelow hreached
    refine ⟨hexponent, by omega, iff_of_true hinteg ?_⟩
    intro p hp hplace
    exact hreached (hiff.mpr ⟨p, hp, hplace⟩)

/-- The smallest double of all has one digit. -/
theorem small_digit_smallest :
    (-324 ≤ (ofDouble (ofBits 1)).exponent ∧ (ofDouble (ofBits 1)).exponent ≤ -5) ∧
      (1 ≤ (ofDouble (ofBits 1)).integral ∧ (ofDouble (ofBits 1)).integral ≤ 10) ∧
      ((ofDouble (ofBits 1)).integral ≤ 9 ↔
        ∀ p ∈ tens, nearPower p.1 ≠ (1 : BitVec 64).toNat + p.2) :=
  small_digit_iff 1 (ofFields 1) (by decide +kernel) (by decide +kernel) (by decide +kernel)

/-- The double below the threshold has two digits, and is spelled `10e-6` where
    the threshold is spelled `1e-5`. -/
theorem two_spellings :
    ¬ (∀ (bits : BitVec 64) (v : Rat), ofBits bits = .finite false v → 0 < v →
        v ≤ lowerThreshold →
        1 ≤ (ofDouble (ofBits bits)).integral ∧ (ofDouble (ofBits bits)).integral ≤ 9) ∧
      ofDouble (ofBits 0x3EE4F8B588E368F0) = ⟨10, 0, -6⟩ ∧
      ofDouble (ofBits 0x3EE4F8B588E368F1) = ⟨1, 0, -5⟩ := by
  have hbelow : ofDouble (ofBits 0x3EE4F8B588E368F0) = ⟨10, 0, -6⟩ := by
    decide +kernel
  refine ⟨?_, hbelow, by decide +kernel⟩
  intro hall
  have hdigit := (hall 0x3EE4F8B588E368F0 (ofFields 0x3EE4F8B588E368F0) (by decide +kernel)
    (by decide +kernel) (by decide +kernel)).2
  rw [hbelow] at hdigit
  exact absurd hdigit (by decide)

end Split

end Stencil
