import Stencil.Proofs.Number.Enlargement
import Stencil.Proofs.Number.Roundings

/-!
# What Normalizing Keeps

The form of a magnitude stands for a number, which is the magnitude again but
for rounding. An entry of the table that is used costs two roundings, one of
the power of ten in the table and one of the quotient or product. An entry that
is not used costs nothing. With nine entries the count stops at eighteen.

A rounding counts only if what is rounded is not very small. A quotient is
never below one. A product of the smallest doubles would be, were it not for
the first entry of the table, which lifts even the least double above the
magnitudes that have fewer bits.

The significand of a scientific form is at most ten. For small magnitudes the
fields have told that already. Large ones are bounded entry by entry: what is
below the square of a power of ten is divided by it at most down to that power.

## Main definitions

* `Scientific.Form.value`: The number that a form stands for.
* `Scientific.Falls`: A table brings a bound down to ten.
* `Scientific.Approximates`: A form that stands for a magnitude but for rounding.

## Theorems

* `Scientific.within_reduce`, `Scientific.within_enlarge`: An entry costs two roundings.
* `Scientific.within_foldl_reduce`, `Scientific.within_foldl_enlarge`: A table costs two
  for each entry.
* `Scientific.foldl_reduce_le_ten`: Large magnitudes come down to ten.
* `Scientific.normalize_approximates`: The form of a double approximates it.
-/

namespace Stencil

namespace Scientific

open Binary64

/-- The number that a form stands for. -/
def Form.value (form : Form) : Rat := form.significand * 10 ^ form.exponent

theorem value_plain (x : Rat) : (Form.mk x 0).value = x := by
  rw [Form.value, zpow_zero, mul_one]

theorem ten_zpow_pos (e : Int) : (0 : Rat) < 10 ^ e := zpow_pos (by norm_num) e

theorem one_le_ten_zpow {k : Int} (hk : 0 ≤ k) : (1 : Rat) ≤ 10 ^ k :=
  one_le_zpow₀ (by norm_num) hk

/-- One is far above the magnitudes that have fewer bits. -/
theorem normal_of_one_le {x : Rat} (h : 1 ≤ x) : powerOfTwo (-1022) ≤ x := by
  have hone : powerOfTwo 0 = 1 := zpow_zero 2
  -- The least magnitude with all its bits is a power of two far below one.
  have hle := powerOfTwo_le (by decide : (-1022 : Int) ≤ 0)
  rw [hone] at hle
  exact le_trans hle h

theorem within_powerOfTen {k : Int} (hk : 0 ≤ k) : Within 1 (powerOfTen k) (10 ^ k) :=
  within_round (normal_of_one_le (one_le_ten_zpow hk))

theorem one_le_powerOfTen {k : Int} (hk : 0 ≤ k) : 1 ≤ powerOfTen k :=
  one_le_round (one_le_ten_zpow hk)

theorem powerOfTen_pos {k : Int} (hk : 0 ≤ k) : 0 < powerOfTen k :=
  lt_of_lt_of_le zero_lt_one (one_le_powerOfTen hk)

theorem upperThreshold_eq_pow : upperThreshold = 10 ^ 7 := by
  have hround := round_natCast (show 10 ^ 7 < 2 ^ 53 by decide)
  rwa [Nat.cast_pow] at hround

/-- Dividing by an entry is two roundings: that of the power of ten, and that of
    the quotient. -/
theorem within_reduce {k : Int} (hk : 0 ≤ k) {form : Form} (h : 0 < form.value) :
    Within 2 (reduce form k).value form.value := by
  rw [reduce]
  by_cases hused : powerOfTen k ≤ form.significand
  · have hpower := powerOfTen_pos hk
    -- A quotient of one or more has all its bits, so rounding it costs one factor.
    have hquot : 1 ≤ form.significand / powerOfTen k := (one_le_div hpower).mpr hused
    have hround := within_round (normal_of_one_le hquot)
    have htable := (within_powerOfTen hk).div_mul hpower (le_trans (le_of_lt hpower) hused)
    -- The exact power that is factored out meets the rounded one that was divided by.
    have hsplit : form.significand / powerOfTen k * 10 ^ (form.exponent + k) =
        form.significand / powerOfTen k * 10 ^ k * 10 ^ form.exponent := by
      rw [zpow_add₀ (by norm_num : (10 : Rat) ≠ 0)]
      ring
    have hexact : Within 1 (form.significand / powerOfTen k * 10 ^ (form.exponent + k))
        form.value := by
      rw [hsplit]
      exact htable.mul_right (le_of_lt (ten_zpow_pos form.exponent))
    rw [if_pos hused]
    exact (hround.mul_right (le_of_lt (ten_zpow_pos (form.exponent + k)))).trans hexact
  -- An entry that is not used leaves the form as it is.
  · rw [if_neg hused]
    exact within_self (le_of_lt h) 2

/-- So is multiplying by one, unless the product is very small. -/
theorem within_enlarge {k : Int} (hk : 0 ≤ k) {form : Form} (h : 0 < form.significand)
    (hnormal : powerOfTwo (-1022) ≤ form.significand * powerOfTen k) :
    Within 2 (enlarge form k).value form.value := by
  have hvalue : 0 ≤ form.value := le_of_lt (mul_pos h (ten_zpow_pos _))
  rw [enlarge]
  by_cases hused : form.significand < powerOfTen (1 - k)
  · have hround := within_round hnormal
    have htable := (within_powerOfTen hk).symm.div_mul (ten_zpow_pos k) (le_of_lt h)
    -- The product has one power of ten too many, rounded, and the exponent takes off the
    -- exact one.
    have hsplit : form.significand * powerOfTen k * 10 ^ (form.exponent - k) =
        form.significand / 10 ^ k * powerOfTen k * 10 ^ form.exponent := by
      rw [zpow_sub₀ (by norm_num : (10 : Rat) ≠ 0)]
      ring
    have hexact : Within 1 (form.significand * powerOfTen k * 10 ^ (form.exponent - k))
        form.value := by
      rw [hsplit]
      exact htable.mul_right (le_of_lt (ten_zpow_pos form.exponent))
    rw [if_pos hused]
    exact (hround.mul_right (le_of_lt (ten_zpow_pos (form.exponent - k)))).trans hexact
  · rw [if_neg hused]
    exact within_self hvalue 2

/-- Going through a table costs two roundings for each entry. -/
theorem within_foldl_reduce {ks : List Int} (hks : ∀ k ∈ ks, 0 ≤ k) {form : Form}
    (h : 0 < form.value) : Within (2 * ks.length) (ks.foldl reduce form).value form.value := by
  induction ks generalizing form with
  | nil => exact within_self (le_of_lt h) 0
  | cons k rest ih =>
      -- Two roundings here and two for each entry behind it.
      have hstep := within_reduce (hks k List.mem_cons_self) h
      have hrest := ih (fun l hl => hks l (List.mem_cons_of_mem k hl)) (hstep.pos_left h)
      rw [List.foldl_cons, List.length_cons, Nat.mul_succ]
      exact hrest.trans hstep

/-- A magnitude that has all its bits keeps them when it is multiplied. -/
theorem normal_enlarge {k : Int} {form : Form}
    (hproduct : powerOfTwo (-1022) ≤ form.significand * powerOfTen k)
    (hunused : powerOfTen (1 - k) ≤ form.significand → powerOfTwo (-1022) ≤ form.significand) :
    powerOfTwo (-1022) ≤ (enlarge form k).significand := by
  rw [enlarge]
  by_cases hlt : form.significand < powerOfTen (1 - k)
  -- A power of two is not moved by rounding, so the bound stays below.
  · have hle := round_mono (powerOfTwo_pos _) hproduct
    rw [round_powerOfTwo (by decide)] at hle
    rw [if_pos hlt]
    exact hle
  · rw [if_neg hlt]
    exact hunused (not_lt.mp hlt)

/-- The same for multiplying, if there are all bits to begin with: they are kept from
    one entry to the next. -/
theorem within_foldl_enlarge {ks : List Int} (hks : ∀ k ∈ ks, 0 ≤ k) {form : Form}
    (h : powerOfTwo (-1022) ≤ form.significand) :
    Within (2 * ks.length) (ks.foldl enlarge form).value form.value := by
  induction ks generalizing form with
  | nil =>
      have hpos := lt_of_lt_of_le (powerOfTwo_pos _) h
      exact within_self (le_of_lt (mul_pos hpos (ten_zpow_pos _))) 0
  | cons k rest ih =>
      have hpos := lt_of_lt_of_le (powerOfTwo_pos _) h
      have hk := hks k List.mem_cons_self
      have hproduct := le_trans h (le_mul_of_one_le_right (le_of_lt hpos) (one_le_powerOfTen hk))
      have hstep := within_enlarge hk hpos hproduct
      have hrest := ih (fun l hl => hks l (List.mem_cons_of_mem k hl))
        (normal_enlarge hproduct (fun _ => h))
      rw [List.foldl_cons, List.length_cons, Nat.mul_succ]
      exact hrest.trans hstep

theorem steps_nonneg : ∀ k ∈ steps, 0 ≤ k := by decide

/-- A bound is brought down to each power of the table in turn, and in the end
    to ten. -/
def Falls (high : Rat) : List Int → Prop
  | [] => high ≤ 10
  | k :: rest => Binary64.round (high / powerOfTen k) ≤ powerOfTen k ∧ Falls (powerOfTen k) rest

/-- The largest double is brought down to ten. -/
theorem falls_steps : Falls (ofFields 0x7FEFFFFFFFFFFFFF) steps := by
  simp only [steps, Falls]
  decide +kernel

/-- What does not exceed a bound that falls to ten does not exceed ten in the end. -/
theorem foldl_reduce_le_ten {ks : List Int} (hks : ∀ k ∈ ks, 0 ≤ k) {high : Rat}
    (hfalls : Falls high ks) {form : Form} (h : form.significand ≤ high) :
    (ks.foldl reduce form).significand ≤ 10 := by
  induction ks generalizing high form with
  | nil => exact le_trans h hfalls
  | cons k rest ih =>
      have hpower := powerOfTen_pos (hks k List.mem_cons_self)
      have hrest := fun l hl => hks l (List.mem_cons_of_mem k hl)
      rw [List.foldl_cons, reduce]
      by_cases hused : powerOfTen k ≤ form.significand
      · -- The bound is divided by the same power, and the table says how far down it comes.
        have hpos := div_pos (lt_of_lt_of_le hpower hused) hpower
        have hle := round_mono hpos (div_le_div_of_nonneg_right h (le_of_lt hpower))
        rw [if_pos hused]
        exact ih hrest hfalls.2 (le_trans hle hfalls.1)
      -- An entry that is not used is above the magnitude, and takes the place of the
      -- bound.
      · rw [if_neg hused]
        exact ih hrest hfalls.2 (le_of_lt (not_le.mp hused))

/-- A form that stands for a magnitude but for rounding, and can be cut at the
    point. -/
structure Approximates (form : Form) (x : Rat) : Prop where
  nonneg : 0 ≤ form.significand
  lt : form.significand < 10 ^ 7
  plain_or_le_ten : form.exponent = 0 ∨ form.significand ≤ 10
  error : |form.value - x| ≤ 6 / 10 ^ 5 * 10 ^ (form.exponent - 9)

/-- Eighteen roundings of a form with a significand up to ten. -/
theorem approximates_of_within {form : Form} {x : Rat} (hx : 0 < x)
    (hwithin : Within 18 form.value x) (hten : form.significand ≤ 10) :
    Approximates form x := by
  have hunit := ten_zpow_pos form.exponent
  have hvalue := hwithin.pos_left hx
  have hpos : 0 < form.significand := (pos_iff_pos_of_mul_pos hvalue).mpr hunit
  -- Eighteen roundings are off by a factor that is computed.
  have hfactor : 0 ≤ roundingFactor ^ 18 - 1 ∧ roundingFactor ^ 18 - 1 ≤ 6 / 10 ^ 15 := by
    norm_num [roundingFactor, powerOfTwo]
  refine ⟨le_of_lt hpos, by linarith, Or.inr hten, ?_⟩
  -- The value is ten times its power of ten at most.
  calc |form.value - x| ≤ (roundingFactor ^ 18 - 1) * form.value := hwithin.error (le_of_lt hvalue)
    _ ≤ 6 / 10 ^ 15 * (10 * 10 ^ form.exponent) :=
        mul_le_mul hfactor.2 (mul_le_mul_of_nonneg_right hten (le_of_lt hunit)) (le_of_lt hvalue)
          (by norm_num)
    _ = 6 / 10 ^ 5 * 10 ^ (form.exponent - 9) := by
        rw [zpow_sub₀ (by norm_num : (10 : Rat) ≠ 0)]
        norm_num
        ring

/-- A large number is divided nine times at most, and its significand comes down to
    ten. -/
theorem large_approximates {x : Rat} (h : upperThreshold ≤ x)
    (hhigh : x ≤ ofFields 0x7FEFFFFFFFFFFFFF) : Approximates (normalize x) x := by
  have hpos : 0 < x := by
    rw [upperThreshold_eq_pow] at h
    linarith
  have hvalue : 0 < (Form.mk x 0).value := by
    rw [value_plain]
    exact hpos
  have hwithin := within_foldl_reduce steps_nonneg hvalue
  rw [value_plain] at hwithin
  rw [normalize, if_pos h]
  exact approximates_of_within hpos hwithin (foldl_reduce_le_ten steps_nonneg falls_steps hhigh)

/-- The first entry of the table lifts the least double to where it has all its
    bits, and is used for every magnitude below that. -/
theorem within_foldl_steps {x : Rat} (h : ofFields 1 ≤ x) :
    Within 18 (steps.foldl enlarge ⟨x, 0⟩).value x := by
  have hpos : 0 < x := lt_of_lt_of_le (ofFields_pos (by decide)) h
  have hlifted : powerOfTwo (-1022) ≤ x * powerOfTen 256 :=
    calc powerOfTwo (-1022) ≤ ofFields 1 * powerOfTen 256 := by decide +kernel
      _ ≤ x * powerOfTen 256 :=
          mul_le_mul_of_nonneg_right h (le_of_lt (powerOfTen_pos (by decide)))
  have hlimit : powerOfTwo (-1022) ≤ powerOfTen (1 - 256) := by decide +kernel
  -- Used or not, the first entry leaves a significand with all its bits.
  have hfirst : Within 2 (enlarge ⟨x, 0⟩ 256).value (Form.mk x 0).value :=
    within_enlarge (by decide) hpos hlifted
  have hnormal : powerOfTwo (-1022) ≤ (enlarge ⟨x, 0⟩ 256).significand :=
    normal_enlarge hlifted (fun hunused => le_trans hlimit hunused)
  have hrest := within_foldl_enlarge
    (fun k hk => steps_nonneg k (List.mem_of_mem_tail hk)) hnormal
  have hwithin := hrest.trans hfirst
  have hlength : 2 * steps.tail.length + 2 = 18 := rfl
  rw [value_plain, hlength] at hwithin
  rw [show steps = 256 :: steps.tail from rfl, List.foldl_cons]
  exact hwithin

/-- A small double is multiplied nine times at most, and its significand is ten or
    less. -/
theorem small_approximates {n : Nat} (hn : 0 < n) (hsmall : n ≤ lowest) :
    Approximates (normalize (ofFields n)) (ofFields n) := by
  have hten : (normalize (ofFields n)).significand ≤ 10 := by
    rw [normalize_ofFields hn hsmall, ← ofFields_ten, ofFields_strictMono.le_iff_le]
    exact (small_bounds hn hsmall).2
  -- No double above zero is below the least one, which is where the table can begin.
  refine approximates_of_within (ofFields_pos hn) ?_ hten
  rw [normalize_small hn hsmall]
  exact within_foldl_steps (ofFields_strictMono.monotone hn)

/-- The form of a double stands for it but for rounding. -/
theorem normalize_approximates {n : Nat} (hn : n < 0x7FF * leadingOne) :
    Approximates (normalize (ofFields n)) (ofFields n) := by
  rcases ranges n with hlarge | ⟨hpos, hsmall⟩ | ⟨hplain, hupper⟩
  · exact large_approximates hlarge (ofFields_strictMono.monotone (le_largest hn))
  · exact small_approximates hpos hsmall
  · -- In plain form the number is its own significand.
    have hzero : (0 : Rat) ≤ 6 / 10 ^ 5 * 10 ^ ((0 : Int) - 9) := by positivity
    rw [normalize_plain hupper hplain]
    rw [upperThreshold_eq_pow] at hupper
    refine ⟨ofFields_nonneg n, hupper, Or.inl rfl, ?_⟩
    rw [value_plain, sub_self, abs_zero]
    exact hzero

end Scientific

end Stencil
