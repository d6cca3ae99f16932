import Stencil.Proofs.Number.LargeSplit
import Stencil.Proofs.Number.Order

/-!
# Splitting in Machine Words

A split is computed here once more, in machine words: integral part and fraction in
words of 32 bits, the exponent in one of 16 bits with a sign. Every truncation and
every sum is checked, and the computation fails where one does not fit its word. It
never fails for a double, so nothing is lost and nothing wraps round.

The sums are far from their limits once it is known what they are sums of. What has to
be shown is that the fraction stays below `10^9`: a double is less than the next whole
number by `2^(-53)` at least, and a fraction less than one by that much is scaled to
less than `10^9`. And the integral part of a number in plain form stays below `10^7`:
the last double before the threshold has digits that do not carry, and no smaller
double has larger digits.

An exponent is printed where it is not zero. That is outside the thresholds, and
nowhere else: a large number has an exponent of seven at least, and a small one of
minus five at most, so neither rounding nor a carry brings it back to zero.

## Main definitions

* `Scientific.normalize?`, `Split.ofMagnitude?`: Normalizing and splitting in machine
  words.

## Theorems

* `Scientific.normalize?_eq`: Exponents fit their words.
* `Split.scaledFraction_lt`: The fraction of a double is scaled to less than a whole.
* `Split.integral_lt_ten_million`: The integral part has seven digits at most.
* `Split.ofMagnitude?_eq`: Splits fit their words.
* `FloatText.words_suffice`: Splits fit their words, and which numbers are printed with
  an exponent.
-/

namespace Stencil

namespace Scientific

open Binary64

/-- An exponent, if it fits a word of 16 bits with a sign. -/
def exponentWord? (e : Int) : Option Int := if -2 ^ 15 ≤ e ∧ e < 2 ^ 15 then some e else none

/-- A form, if its exponent fits the word. -/
def Form.fits? (form : Form) : Option Form :=
  (exponentWord? form.exponent).map fun e => ⟨form.significand, e⟩

/-- The form of a magnitude, if every exponent on the way fits the word. -/
def normalize? (x : Rat) : Option Form :=
  if upperThreshold ≤ x then steps.foldlM (fun form k => (reduce form k).fits?) ⟨x, 0⟩
  else if 0 < x ∧ x ≤ lowerThreshold then
    steps.foldlM (fun form k => (enlarge form k).fits?) ⟨x, 0⟩
  else some ⟨x, 0⟩

theorem exponentWord?_eq {e : Int} (h : e.natAbs < 2 ^ 15) : exponentWord? e = some e :=
  if_pos (by omega)

/-- Every entry of a table moves the exponent by itself at most, so a short table leaves
    it in its word. -/
theorem foldlM_fits {f : Form → Int → Form}
    (hf : ∀ form k, (f form k).exponent.natAbs ≤ form.exponent.natAbs + k.natAbs) {bound : Nat}
    {ks : List Int} (hks : ∀ k ∈ ks, k.natAbs ≤ bound) {form : Form}
    (hroom : form.exponent.natAbs + ks.length * bound < 2 ^ 15) :
    ks.foldlM (fun form k => (f form k).fits?) form = some (ks.foldl f form) := by
  induction ks generalizing form with
  | nil => rfl
  | cons k rest ih =>
      have hstep := hf form k
      have hk := hks k List.mem_cons_self
      rw [List.length_cons, Nat.succ_mul] at hroom
      -- The room that is left for the other entries is room enough for this one.
      have hfits : (f form k).fits? = some (f form k) := by
        rw [Form.fits?, exponentWord?_eq (by omega), Option.map_some]
      rw [List.foldlM_cons, hfits, List.foldl_cons]
      exact ih (fun l hl => hks l (List.mem_cons_of_mem k hl)) (by omega)

/-- The tables have nine entries of at most 256, so an exponent never leaves its word.
    -/
theorem normalize?_eq (x : Rat) : normalize? x = some (normalize x) := by
  have hsteps : ∀ k ∈ steps, k.natAbs ≤ 256 := by decide
  have hroom : (Form.mk x 0).exponent.natAbs + steps.length * 256 < 2 ^ 15 := by
    rw [Int.natAbs_zero]
    decide
  -- Either table is checked by the same bound; which one is used does not matter.
  rw [normalize?, normalize, foldlM_fits FloatText.natAbs_reduce hsteps hroom,
    foldlM_fits FloatText.natAbs_enlarge hsteps hroom]
  split
  · rfl
  · split <;> rfl

/-- The significand of a double is a double. -/
theorem exists_ofFields_normalize {n : Nat} (hn : n < 0x7FF * leadingOne) :
    ∃ m, (normalize (ofFields n)).significand = ofFields m := by
  rcases ranges n with hlarge | ⟨hpos, hsmall⟩ | ⟨hplain, hupper⟩
  -- A reduction ends at a double, each of its quotients being rounded to one.
  · rcases foldl_reduce_lt_ten steps_nonneg sinks_steps (le_largest hn) 0 with ⟨m, -, hm⟩
    exact ⟨m, by rw [normalize_large hlarge, hm]⟩
  -- An enlargement is computed on the fields of a double.
  · exact ⟨_, by rw [normalize_ofFields hpos hsmall]⟩
  · exact ⟨n, by rw [normalize_plain hupper hplain]⟩

end Scientific

namespace Split

open Binary64 Scientific

/-- A number, if it fits a word of 32 bits. -/
def word? (n : Nat) : Option Nat := if n ≤ largestWord then some n else none

/-- Cut off the fraction of a magnitude, if what is left fits a word. -/
def truncate? (x : Rat) : Option Nat := word? x.floor.toNat

/-- Count the fraction up by one, and carry, if every sum fits its word. -/
def carry? (s : Split) : Option Split :=
  (word? (s.fraction + 1)).bind fun fraction =>
    if fraction < fractionScale then some { s with fraction := fraction }
    else (word? (s.integral + 1)).bind fun integral =>
      if s.exponent ≠ 0 ∧ 10 ≤ integral then
        (exponentWord? (s.exponent + 1)).map fun exponent => ⟨1, 0, exponent⟩
      else some ⟨integral, 0, s.exponent⟩

/-- Cut a form at the point, if everything fits its word. -/
def ofForm? (form : Form) : Option Split :=
  (truncate? form.significand).bind fun integral =>
    let scaled := Binary64.round (Binary64.round (form.significand - integral) * fractionScale)
    (truncate? scaled).bind fun fraction =>
      let split : Split := ⟨integral, fraction, form.exponent⟩
      if 1 / 2 ≤ Binary64.round (scaled - fraction) then split.carry? else some split

/-- The split of a magnitude, if everything fits its word. -/
def ofMagnitude? (x : Rat) : Option Split := (normalize? x).bind ofForm?

theorem word?_eq {n : Nat} (h : n ≤ largestWord) : word? n = some n := if_pos h

/-- What is cut off of a number that fits a word fits it too. -/
theorem truncate?_eq {x : Rat} (h : x ≤ largestWord) : truncate? x = some (truncate x) := by
  have hfloor : x.floor.toNat ≤ largestWord := by
    have hle : (x.floor : Rat) ≤ largestWord := le_trans (Rat.le_floor_iff.mp (le_refl _)) h
    have hle : x.floor ≤ largestWord := by exact_mod_cast hle
    omega
  rw [truncate?, word?_eq hfloor, truncate, Nat.min_eq_left hfloor]

/-- With room for one more in each part, nothing overflows on the way of a carry. -/
theorem carry?_eq {s : Split} (hfraction : s.fraction < fractionScale)
    (hintegral : s.integral < largestWord) (hexponent : s.exponent.natAbs < 2 ^ 15 - 1) :
    s.carry? = some s.carry := by
  have hscale : fractionScale < largestWord := by decide
  rw [carry?, carry, word?_eq (by omega), Option.bind_some, word?_eq hintegral, Option.bind_some,
    exponentWord?_eq (by omega), Option.map_some]
  split
  · rfl
  · split <;> rfl

/-! ## The fraction -/

/-- The last double before one. -/
theorem ofFields_below_one : ofFields (one - 1) = 1 - powerOfTwo (-53) := by
  decide +kernel

/-- A double is less than the next whole number by `2^(-53)` at least. -/
theorem sub_truncate_le {n : Nat} (hword : ofFields n ≤ largestWord) :
    ofFields n - truncate (ofFields n) ≤ ofFields (one - 1) := by
  have hhigh := (truncate_bounds (ofFields_nonneg n) hword).2
  by_cases hless : n < one
  -- Below one there is nothing to cut off.
  · have hle := ofFields_strictMono.monotone (Nat.le_sub_one_of_lt hless)
    have hnonneg : (0 : Rat) ≤ truncate (ofFields n) := Nat.cast_nonneg _
    linarith
  · -- From one on every double is a whole number of units of `2^(-52)`.
    have hgrid : 1022 ≤ gridIndex n := by
      unfold one at hless
      unfold gridIndex leadingOne
      omega
    have hunits : ofFields n * 2 ^ 52 = (significand n * 2 ^ (gridIndex n - 1022) : Nat) := by
      have hsum : ((gridIndex n - 1022 : Nat) : Int) + -52 = gridIndex n - 1074 := by omega
      have hpower : powerOfTwo (-52) * 2 ^ 52 = 1 := by norm_num [powerOfTwo]
      rw [ofFields, ← hsum, powerOfTwo_add, powerOfTwo_natCast, mul_assoc, mul_assoc, hpower,
        mul_one, Nat.cast_mul]
    -- The next whole number is one of the grid as well, so it is a unit away at least.
    generalize significand n * 2 ^ (gridIndex n - 1022) = m at hunits
    have hbelow : m + 1 ≤ (truncate (ofFields n) + 1) * 2 ^ 52 := by
      have hlt : (m : Rat) < (truncate (ofFields n) + 1) * 2 ^ 52 := by
        rw [← hunits]
        exact mul_lt_mul_of_pos_right hhigh (by norm_num)
      exact_mod_cast hlt
    have hbelow : (m : Rat) + 1 ≤ (truncate (ofFields n) + 1) * 2 ^ 52 := by
      exact_mod_cast hbelow
    have hunit : powerOfTwo (-53) ≤ 1 / 2 ^ 52 := by norm_num [powerOfTwo]
    rw [ofFields_below_one]
    linarith

/-- The fraction of a double is scaled to less than a whole. -/
theorem scaledFraction_lt {n : Nat} (hword : ofFields n ≤ largestWord) :
    scaledFraction (ofFields n) < 10 ^ 9 := by
  have hnonneg := sub_nonneg.mpr (truncate_bounds (ofFields_nonneg n) hword).1
  have hscale : (0 : Rat) ≤ fractionScale := Nat.cast_nonneg _
  have hdifference := Binary64.round_le hnonneg (sub_truncate_le hword)
    (round_ofFields (by decide))
  have hscaled := round_mono_of_nonneg (mul_nonneg (Binary64.round_nonneg hnonneg) hscale)
    (mul_le_mul_of_nonneg_right hdifference hscale)
  -- The greatest difference there is, scaled and rounded, is computed.
  refine lt_of_le_of_lt hscaled ?_
  decide +kernel

/-- So the digits behind the point are nine at most before any carry. -/
theorem truncate_scaledFraction_lt {n : Nat} (hword : ofFields n ≤ largestWord) :
    truncate (scaledFraction (ofFields n)) < fractionScale := by
  have hless := scaledFraction_lt hword
  have hlow := (truncate_bounds (scaledFraction_bounds (ofFields_nonneg n) hword).1
    (scaledFraction_le_word (ofFields_nonneg n) hword)).1
  have hlt := lt_of_le_of_lt hlow hless
  rw [← cast_fractionScale] at hlt
  exact_mod_cast hlt

/-- The carry leaves no full fraction behind. -/
theorem fraction_carry (s : Split) : s.carry.fraction < fractionScale := by
  rw [carry]
  split
  · next hless => exact hless
  · split <;> exact Nat.pow_pos (by decide)

/-- The last double before the threshold has digits that do not carry, and no smaller
    double has larger ones. -/
theorem units_below_threshold {n : Nat} (h : ofFields n < upperThreshold) :
    units (ofFields n) ≤ 9999999999999998 := by
  -- These are the fields in front of those of the threshold.
  have hlast : n ≤ 0x416312CFFFFFFFFF := by
    rw [upperThreshold_eq, ofFields_strictMono.lt_iff_lt] at h
    omega
  have hmost : units (ofFields 0x416312CFFFFFFFFF) = 9999999999999998 := by decide +kernel
  rw [← hmost]
  exact units_mono (ofFields_nonneg n) (ofFields_strictMono.monotone hlast) (by decide +kernel)

section Double

variable {n : Nat} (hn : n < 0x7FF * leadingOne)

include hn

/-- The significand is less than ten million, which is far from the largest word. -/
theorem significand_le_word : (Scientific.normalize (ofFields n)).significand ≤ largestWord :=
  le_trans (le_of_lt (normalize_approximates hn).lt) (by norm_num [largestWord])

theorem truncate_normalize_lt :
    truncate (scaledFraction (Scientific.normalize (ofFields n)).significand) < fractionScale := by
  rcases exists_ofFields_normalize hn with ⟨m, hm⟩
  have hword := significand_le_word hn
  rw [hm] at hword ⊢
  exact truncate_scaledFraction_lt hword

/-- The fraction of a split has nine digits, whether it was carried or not. -/
theorem fraction_lt : (ofMagnitude (ofFields n)).fraction < fractionScale := by
  rw [ofMagnitude, ofForm_eq]
  split
  · exact fraction_carry _
  · exact truncate_normalize_lt hn

/-- The integral part has seven digits at most. In plain form it is bounded by the
    number that all digits make up. -/
theorem integral_lt_ten_million : (ofMagnitude (ofFields n)).integral < 10 ^ 7 := by
  rcases exponent_cases hn with ⟨hlarge, -⟩ | ⟨hsmall, -⟩ | ⟨hlower, hupper, hexponent⟩
  -- With an exponent there is a single digit, or ten at most.
  · exact lt_of_le_of_lt (large_split hn hlarge).le_nine (by decide)
  · rw [small_iff_le_lowest] at hsmall
    rcases small_split hsmall.1 hsmall.2 with ⟨-, -, hnine, hten⟩
    by_cases hreached : (enlargeFields factors n 0).1 = ten
    · exact lt_of_le_of_lt (le_of_eq (hten hreached)) (by decide)
    · exact lt_of_le_of_lt (hnine hreached) (by decide)
  -- In plain form the integral part is no more than the number that is denoted.
  · have hunits : (units (ofFields n) : Rat) ≤ 9999999999999998 := by
      exact_mod_cast units_below_threshold hupper
    have hdenoted := denoted_plain (ofFields_nonneg n) hupper hlower
    rw [denoted, hexponent, zpow_zero, mul_one] at hdenoted
    have hfraction : (0 : Rat) ≤ ((ofMagnitude (ofFields n)).fraction : Rat) / fractionScale := by
      positivity
    have hlt : ((ofMagnitude (ofFields n)).integral : Rat) < 10 ^ 7 := by linarith
    exact_mod_cast hlt

/-- Splits fit their words. -/
theorem ofMagnitude?_eq : ofMagnitude? (ofFields n) = some (ofMagnitude (ofFields n)) := by
  have happrox := normalize_approximates hn
  have hword := significand_le_word hn
  have hfraction := truncate_normalize_lt hn
  -- Each checked step gets the bound that it needs, in the order of the steps.
  have hintegral : truncate (Scientific.normalize (ofFields n)).significand < largestWord := by
    have hlow := (truncate_bounds happrox.nonneg hword).1
    have hlt : (truncate (Scientific.normalize (ofFields n)).significand : Rat) < largestWord :=
      lt_of_le_of_lt hlow (lt_trans happrox.lt (by norm_num [largestWord]))
    exact_mod_cast hlt
  have hexponent := FloatText.natAbs_normalize (ofFields n)
  have hscaled := scaledFraction_le_word happrox.nonneg hword
  rw [ofMagnitude?, normalize?_eq, Option.bind_some, ofForm?, truncate?_eq hword,
    Option.bind_some, ofMagnitude, ofForm_eq, ← scaledFraction]
  dsimp only
  rw [truncate?_eq hscaled, Option.bind_some, carry?_eq hfraction hintegral (by simp only; omega)]
  split <;> rfl

end Double

end Split

namespace FloatText

open Binary64 Scientific Numeral

/-- Digits, signs and points are no exponent. -/
theorem exponent_mem_text_iff {p : Parts} (hdigits : ∀ c ∈ p.digits, c.isDigit = true) :
    'e' ∈ p.text ↔ p.exponent ≠ 0 := by
  have hnot : ∀ t : Text, (∀ c ∈ t, c.isDigit = true) → 'e' ∉ t := by
    intro t ht hmem
    exact absurd (ht 'e' hmem) (by decide)
  -- A letter is no digit and no sign, and neither is it a point.
  have hsigned : 'e' ∉ signed p.negative p.integral := by
    have htoDigits := hnot _ (fun c => isDigit_toDigits (n := p.integral) (c := c))
    rw [signed]
    cases p.negative with
    | false => exact htoDigits
    | true => simpa using htoDigits
  have hpointed : 'e' ∉ pointed p.digits := by
    rw [pointed]
    split
    · exact List.not_mem_nil
    · simpa using hnot _ hdigits
  rw [Parts.text, List.mem_append, List.mem_append, powered]
  split
  · next hzero => simp [hsigned, hpointed, hzero]
  · next hexponent => simp [hexponent]

/-- Splitting a double needs no larger words, the fraction has nine digits and the
    integral part seven at most, and the exponent is zero between the thresholds and
    nowhere else. So the text of a double shows an exponent outside the thresholds and
    nowhere else, whatever the spec. -/
theorem words_suffice (bits : BitVec 64) (negative : Bool) (v : Rat)
    (hbits : ofBits bits = .finite negative v) :
    Split.ofMagnitude? v = some (Split.ofMagnitude v) ∧
      (Split.ofMagnitude v).fraction < fractionScale ∧
      (Split.ofMagnitude v).integral < 10 ^ 7 ∧
      ((Split.ofMagnitude v).exponent = 0 ↔
        v = 0 ∨ (lowerThreshold < v ∧ v < upperThreshold)) ∧
      ∀ spec, 'e' ∈ (render (.finite negative v) spec).content ↔
        upperThreshold ≤ v ∨ (0 < v ∧ v ≤ lowerThreshold) := by
  rcases exists_ofFields_of_ofBits hbits with ⟨n, hn, rfl⟩
  have hpos := lowerThreshold_pos
  have hless := lowerThreshold_lt
  have hcases := Split.exponent_cases hn
  refine ⟨Split.ofMagnitude?_eq hn, Split.fraction_lt hn, Split.integral_lt_ten_million hn, ?_,
    fun spec => ?_⟩
  · rcases hcases with ⟨hlarge, hexponent⟩ | ⟨⟨hpos, hsmall⟩, hexponent⟩ |
      ⟨hlower, hupper, hexponent⟩
    -- A number with an exponent is on the outer side of a threshold.
    · refine iff_of_false (by omega) ?_
      rintro (hzero | ⟨-, hupper⟩) <;> linarith
    · refine iff_of_false (by omega) ?_
      rintro (hzero | ⟨hlower, -⟩) <;> linarith
    · exact iff_of_true hexponent (hlower.imp_right (fun hlt => ⟨hlt, hupper⟩))
  · rw [content_render, exponent_mem_text_iff (isDigit_partsOf negative _ _), partsOf]
    rcases hcases with ⟨hlarge, hexponent⟩ | ⟨hsmall, hexponent⟩ | ⟨hlower, hupper, hexponent⟩
    -- The text shows an exponent exactly if the split has one.
    · exact iff_of_true (by simp only; omega) (Or.inl hlarge)
    · exact iff_of_true (by simp only; omega) (Or.inr hsmall)
    · refine iff_of_false (fun hne => hne hexponent) ?_
      rintro (hlarge | ⟨hpos, hle⟩)
      · linarith
      · rcases hlower with hzero | hlt <;> linarith

/-- The last double before the upper threshold is printed without an exponent. -/
theorem words_suffice_below_threshold :
    Split.ofMagnitude? (ofFields 0x416312CFFFFFFFFF) = some ⟨9999999, 999999998, 0⟩ ∧
      'e' ∉ (render (.finite true (ofFields 0x416312CFFFFFFFFF)) ['.', '3']).content := by
  have hbits : ofBits 0xC16312CFFFFFFFFF = .finite true (ofFields 0x416312CFFFFFFFFF) := by
    decide +kernel
  rcases words_suffice _ true _ hbits with ⟨hwords, -, -, -, hexponent⟩
  refine ⟨hwords.trans (by decide +kernel), ?_⟩
  rw [hexponent]
  decide +kernel

end FloatText

end Stencil
