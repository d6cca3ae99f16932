import Stencil.Proofs.Number.Rounding
import Mathlib.Order.Monotone.Basic
import Mathlib.Tactic.Ring

/-!
# Doubles as Numbers of Their Fields

The exponent and fraction fields of a positive double, read as one number, count
the doubles from zero up. So the order of doubles is the order of these numbers,
the next double is the next number, and a question about all doubles between
two is one about an interval of naturals. Multiplying and rounding can be done
on the fields too, with nothing but whole numbers.

A product is a whole number of some power of two. Rounding it divides by another
power of two and takes the nearest integer, which is the significand. Putting it
together with the exponent needs no cases: a significand that is rounded up to
the next power of two carries into the exponent field by itself.

## Main definitions

* `Binary64.significand`, `Binary64.gridIndex`: The parts of the fields.
* `Binary64.ofFields`: The magnitude with some fields.
* `Binary64.halfEven`: The nearest integer to a fraction, ties to even.
* `Binary64.product`: The fields of a rounded product.

## Theorems

* `Binary64.ofFields_strictMono`: Fields have the order of their magnitudes.
* `Binary64.ofBits_finite`: A pattern of a positive double holds its fields.
* `Binary64.round_ofFields`: A double is rounded to itself.
* `Binary64.round_mul`: Rounding a product is multiplying the fields.
-/

namespace Stencil

namespace Binary64

/-- The number of values of the fraction field, and the leading one before it. -/
def leadingOne : Nat := 0x10000000000000

/-- The significand of the double with the given fields, as a whole number. -/
def significand (n : Nat) : Nat :=
  if n / leadingOne = 0 then n else leadingOne + n % leadingOne

/-- The place of its grid, counted from the finest. -/
def gridIndex (n : Nat) : Nat := n / leadingOne - 1

/-- The magnitude of the double with the given fields. -/
def ofFields (n : Nat) : Rat := significand n * powerOfTwo (gridIndex n - 1074)

/-- The nearest integer to a fraction. A tie goes to the even neighbour. -/
def halfEven (a b : Nat) : Nat :=
  if 2 * (a % b) < b then a / b
  else if b < 2 * (a % b) then a / b + 1
  else if a / b % 2 = 0 then a / b
  else a / b + 1

/-- The fields of a product, rounded. -/
def product (n m : Nat) : Nat :=
  let digits := significand n * significand m
  let scale := gridIndex n + gridIndex m
  let grid := digits.log2 + scale - 1126
  grid * leadingOne +
    halfEven (digits * 2 ^ (scale - (grid + 1074))) (2 ^ (grid + 1074 - scale))

/-- A grid and a place on it, the top of the grid included, make up fields. -/
theorem ofFields_grid {k q : Nat} (hlow : k = 0 ∨ leadingOne ≤ q) (hhigh : q ≤ 2 * leadingOne) :
    ofFields (k * leadingOne + q) = q * powerOfTwo (k - 1074) := by
  unfold leadingOne at hlow hhigh
  unfold ofFields significand gridIndex leadingOne
  by_cases hsmall : q < 0x10000000000000
  -- Below the leading one there is the finest grid only.
  · have hk : k = 0 := by omega
    have hdiv : (k * 0x10000000000000 + q) / 0x10000000000000 = 0 := by omega
    rw [if_pos hdiv, hdiv, hk, Nat.zero_mul, Nat.zero_add]
  · by_cases htop : q = 2 * 0x10000000000000
    · -- The top of a grid is the bottom of the next.
      have hdiv : (k * 0x10000000000000 + q) / 0x10000000000000 = k + 2 := by omega
      have hmod : (k * 0x10000000000000 + q) % 0x10000000000000 = 0 := by omega
      have hexp : ((k + 2 - 1 : Nat) : Int) - 1074 = 1 + (k - 1074) := by omega
      rw [if_neg (by omega), hdiv, hmod, hexp, powerOfTwo_add, htop]
      rw [show powerOfTwo 1 = 2 from rfl]
      push_cast
      ring
    -- The leading one of the place is counted as one of the grids.
    · have hdiv : (k * 0x10000000000000 + q) / 0x10000000000000 = k + 1 := by omega
      have hmod : (k * 0x10000000000000 + q) % 0x10000000000000 = q - 0x10000000000000 := by omega
      have hsum : 0x10000000000000 + (q - 0x10000000000000) = q := by omega
      rw [if_neg (by omega), hdiv, hmod, hsum, Nat.add_sub_cancel]

/-- Every number of fields is a grid and a place on it. -/
theorem fields_eq (n : Nat) :
    gridIndex n * leadingOne + significand n = n ∧
      (gridIndex n = 0 ∨ leadingOne ≤ significand n) ∧ significand n < 2 * leadingOne := by
  unfold significand gridIndex leadingOne
  by_cases h : n / 0x10000000000000 = 0
  -- Fields without a grid are a place on the finest one.
  · rw [if_pos h]
    omega
  · rw [if_neg h]
    omega

theorem significand_pos {n : Nat} (h : 0 < n) : 0 < significand n := by
  unfold significand leadingOne
  split <;> omega

/-- One more in the fields is one place further on the grid. -/
theorem ofFields_succ (n : Nat) : ofFields n < ofFields (n + 1) := by
  rcases fields_eq n with ⟨hsum, hlow, hhigh⟩
  -- The next place on the grid, or the first of the next grid.
  have hnext : ofFields (n + 1) = (significand n + 1 : Nat) * powerOfTwo (gridIndex n - 1074) := by
    have hgrid := ofFields_grid (k := gridIndex n) (q := significand n + 1)
      (hlow.imp_right (fun h => by omega)) (by omega)
    rw [← Nat.add_assoc, hsum] at hgrid
    exact hgrid
  have hpos := powerOfTwo_pos (gridIndex n - 1074)
  rw [hnext, ofFields]
  refine mul_lt_mul_of_pos_right ?_ hpos
  exact_mod_cast Nat.lt_succ_self _

/-- Fields have the order of their magnitudes. -/
theorem ofFields_strictMono : StrictMono ofFields := strictMono_nat_of_lt_succ ofFields_succ

theorem ofFields_zero : ofFields 0 = 0 := by
  unfold ofFields significand
  rw [if_pos (Nat.zero_div _), Nat.cast_zero, zero_mul]

theorem ofFields_nonneg (n : Nat) : 0 ≤ ofFields n :=
  mul_nonneg (Nat.cast_nonneg _) (le_of_lt (powerOfTwo_pos _))

theorem ofFields_pos {n : Nat} (h : 0 < n) : 0 < ofFields n := by
  have hlt := ofFields_strictMono h
  rw [ofFields_zero] at hlt
  exact hlt

/-- A pattern of a double without a sign holds its fields. -/
theorem ofBits_finite {bits : BitVec 64} {v : Rat} (h : ofBits bits = .finite false v) :
    v = ofFields bits.toNat ∧ bits.toNat < 0x7FF * leadingOne := by
  have hbits := bits.isLt
  have hfractions : double.fractions = 0x10000000000000 := rfl
  have hexponents : double.exponents = 0x800 := rfl
  unfold leadingOne
  rw [ofBits, decode] at h
  generalize bits.toNat = n at h hbits ⊢
  -- Infinities and what is not a number have no magnitude.
  split at h
  · split at h
    · exact absurd h (by simp only [reduceCtorEq, not_false_eq_true])
    · exact absurd h (by simp only [reduceCtorEq, not_false_eq_true])
  · rename_i hspecial
    rw [hfractions, hexponents] at hspecial
    split at h
    · rename_i hzero
      simp only [Binary64.finite.injEq, decide_eq_false_iff_not] at h
      -- A double below the normal ones: there is no leading one to add.
      rcases h with ⟨hsign, hvalue⟩
      rw [hfractions, hexponents] at hzero hsign
      have hdiv : n / 0x10000000000000 = 0 := by omega
      have hmod : n % 0x10000000000000 = n := by omega
      refine ⟨?_, by omega⟩
      unfold ofFields significand gridIndex leadingOne
      rw [if_pos hdiv, hdiv, ← hvalue, hfractions, hmod]
      rfl
    · rename_i hzero
      simp only [Binary64.finite.injEq, decide_eq_false_iff_not] at h
      -- A normal double: the exponent field is the grid, and the leading one is not
      -- stored.
      rcases h with ⟨hsign, hvalue⟩
      rw [hfractions, hexponents] at hzero hsign
      have hdiv : n / 0x10000000000000 % 0x800 = n / 0x10000000000000 := by omega
      have hexp : ((n / 0x10000000000000 - 1 : Nat) : Int) - 1074 =
          double.lowest + (n / 0x10000000000000 - 1 : Nat) := by
        rw [show double.lowest = -1074 from rfl]
        omega
      refine ⟨?_, by omega⟩
      unfold ofFields significand gridIndex leadingOne
      rw [if_neg (by omega), ← hvalue, hfractions, hexponents, hdiv, hexp]

theorem le_largest {n : Nat} (hn : n < 0x7FF * leadingOne) : n ≤ 0x7FEFFFFFFFFFFFFF := by
  unfold leadingOne at hn
  omega

/-- The sign is no part of the fields. -/
theorem exists_ofFields_of_ofBits {bits : BitVec 64} {negative : Bool} {v : Rat}
    (h : ofBits bits = .finite negative v) : ∃ n < 0x7FF * leadingOne, v = ofFields n := by
  -- Without the sign it is the pattern of the magnitude.
  have hfields : (BitVec.ofNat 64 (bits.toNat % 2 ^ 63)).toNat = bits.toNat % 2 ^ 63 := by
    rw [BitVec.toNat_ofNat]
    omega
  have hunsigned : ofBits (BitVec.ofNat 64 (bits.toNat % 2 ^ 63)) = .finite false v := by
    have hfractions : double.fractions = 0x10000000000000 := rfl
    have hexponents : double.exponents = 0x800 := rfl
    rw [ofBits, decode, hfractions, hexponents] at h ⊢
    rw [hfields]
    generalize bits.toNat = n at h ⊢
    -- The fields below the sign are the same, and the sign is off.
    have hfraction : n % 2 ^ 63 % 0x10000000000000 = n % 0x10000000000000 := by omega
    have hexponent : n % 2 ^ 63 / 0x10000000000000 % 0x800 = n / 0x10000000000000 % 0x800 := by
      omega
    have hsign : ¬ n % 2 ^ 63 / 0x10000000000000 / 0x800 % 2 = 1 := by omega
    simp only [hfraction, hexponent, hsign, decide_false] at h ⊢
    split at h
    · split at h <;> exact absurd h (by simp only [reduceCtorEq, not_false_eq_true])
    · next hspecial =>
        rw [if_neg hspecial]
        split at h
        · next hzero => rw [if_pos hzero, (Binary64.finite.inj h).2]
        · next hzero => rw [if_neg hzero, (Binary64.finite.inj h).2]
  have hfinite := ofBits_finite hunsigned
  exact ⟨_, hfinite.2, hfinite.1⟩

/-- The nearest integer to a fraction of whole numbers. -/
theorem nearestInt_div {a b : Nat} (hb : 0 < b) : nearestInt ((a : Rat) / b) = halfEven a b := by
  have hbpos : (0 : Rat) < b := by exact_mod_cast hb
  have hdiv : (a : Rat) / b = (a / b : Nat) + ((a % b : Nat) : Rat) / b := by
    have hsum : (a : Rat) = b * (a / b : Nat) + (a % b : Nat) := by
      exact_mod_cast (Nat.div_add_mod a b).symm
    rw [hsum, add_div, mul_div_cancel_left₀ _ (ne_of_gt hbpos)]
  -- The floor is the quotient, the remainder being less than the divisor.
  have hfloor : ((a : Rat) / b).floor = (a / b : Nat) := by
    refine Int.le_antisymm (Int.lt_add_one_iff.mp ?_) ?_
    · refine Rat.floor_lt_iff.mpr ((div_lt_iff₀ hbpos).mpr ?_)
      exact_mod_cast Nat.lt_mul_of_div_lt (Nat.lt_succ_self (a / b)) hb
    · refine Rat.le_floor_iff.mpr ((le_div_iff₀ hbpos).mpr ?_)
      exact_mod_cast Nat.div_mul_le_self a b
  -- What decides the direction is twice the remainder against the divisor.
  have htwice : 2 * ((a : Rat) / b - (a / b : Nat)) = ((2 * (a % b) : Nat) : Rat) / b := by
    rw [hdiv, add_sub_cancel_left]
    push_cast
    ring
  have hlt : 2 * ((a : Rat) / b - (a / b : Nat)) < 1 ↔ 2 * (a % b) < b := by
    rw [htwice, div_lt_one hbpos]
    exact Nat.cast_lt
  have hgt : 1 < 2 * ((a : Rat) / b - (a / b : Nat)) ↔ b < 2 * (a % b) := by
    rw [htwice, one_lt_div hbpos]
    exact Nat.cast_lt
  have heven : ((a / b : Nat) : Int) % 2 = 0 ↔ a / b % 2 = 0 := by omega
  -- All three comparisons agree, so the same neighbour is chosen.
  unfold nearestInt halfEven
  simp only [hfloor, Int.cast_natCast, hlt, hgt, heven]
  split
  · rfl
  · split
    · rfl
    · split <;> rfl

/-- The order of a whole number of some power of two is read off its digits. -/
theorem binaryOrder_digits {n : Nat} (hn : 0 < n) (e : Int) :
    binaryOrder (n * powerOfTwo e) = n.log2 + e := by
  have hpos := powerOfTwo_pos e
  have hlow : powerOfTwo n.log2 ≤ n := by
    rw [powerOfTwo_natCast]
    exact_mod_cast Nat.log2_self_le (by omega)
  have hhigh : (n : Rat) < powerOfTwo (n.log2 + 1 : Nat) := by
    rw [powerOfTwo_natCast]
    exact_mod_cast Nat.lt_log2_self
  refine binaryOrder_unique ?_ ?_
  · rw [powerOfTwo_add]
    exact mul_le_mul_of_nonneg_right hlow (le_of_lt hpos)
  · rw [show (n.log2 : Int) + e + 1 = (n.log2 + 1 : Nat) + e by omega, powerOfTwo_add]
    exact mul_lt_mul_of_pos_right hhigh hpos

theorem powerOfTwo_52 : powerOfTwo (52 : Nat) = ((leadingOne : Nat) : Rat) :=
  powerOfTwo_natCast 52

/-- On its own grid a magnitude is up to `2^53`, and from `2^52` on unless the
    grid is the finest. -/
theorem place_bounds {x : Rat} {k : Nat} (hx : 0 < x) (hgrid : spacingExponent x = k - 1074) :
    (k = 0 ∨ ((leadingOne : Int) : Rat) ≤ x / powerOfTwo (k - 1074)) ∧
      x / powerOfTwo (k - 1074) ≤ ((2 * leadingOne : Nat) : Int) := by
  rcases binaryOrder_spec hx with ⟨hlow, hhigh⟩
  have hpos := powerOfTwo_pos ((k : Int) - 1074)
  rw [spacingExponent] at hgrid
  refine ⟨?_, ?_⟩
  -- The finest grid has no lower bound for its places.
  · by_cases hk : k = 0
    · exact Or.inl hk
    · have hsum : (52 : Nat) + ((k : Int) - 1074) = binaryOrder x := by omega
      refine Or.inr ((le_div_iff₀ hpos).mpr ?_)
      rw [Int.cast_natCast, ← powerOfTwo_52, ← powerOfTwo_add, hsum]
      exact hlow
  · -- The grid is never finer than the magnitude needs, so the top is `2^53`.
    have hdouble : ((2 * leadingOne : Nat) : Rat) = powerOfTwo (53 : Nat) := by
      rw [powerOfTwo_natCast]
      rfl
    refine (div_le_iff₀ hpos).mpr (le_of_lt (lt_of_lt_of_le hhigh ?_))
    rw [Int.cast_natCast, hdouble, ← powerOfTwo_add]
    exact powerOfTwo_le (by omega)

/-- What rounding leads to is a double. -/
theorem exists_ofFields_round {x : Rat} (hx : 0 < x) : ∃ n, round x = ofFields n := by
  have hgrid : spacingExponent x = ((spacingExponent x + 1074).toNat : Int) - 1074 := by
    rw [spacingExponent]
    omega
  generalize (spacingExponent x + 1074).toNat = k at hgrid
  rcases place_bounds hx hgrid with ⟨hlow, hhigh⟩
  have hpos := powerOfTwo_pos ((k : Int) - 1074)
  have hnonneg : 0 ≤ nearestInt (x / powerOfTwo (k - 1074)) := by
    refine le_nearestInt ?_
    rw [Int.cast_zero]
    exact div_nonneg (le_of_lt hx) (le_of_lt hpos)
  -- The bounds of the place are whole, so the nearest place has them too.
  have hlow' := hlow.imp_right le_nearestInt
  have hhigh' := nearestInt_le hhigh
  rw [round_eq hgrid]
  generalize nearestInt (x / powerOfTwo (k - 1074)) = place at hnonneg hlow' hhigh' ⊢
  rcases Int.eq_ofNat_of_zero_le hnonneg with ⟨q, rfl⟩
  refine ⟨k * leadingOne + q, ?_⟩
  rw [ofFields_grid (hlow'.imp_right Int.ofNat_le.mp) (Int.ofNat_le.mp hhigh'), Int.cast_natCast]

/-- A double is rounded to itself. -/
theorem round_ofFields {n : Nat} (hn : 0 < n) : round (ofFields n) = ofFields n := by
  rcases fields_eq n with ⟨-, hlow, hhigh⟩
  have hsig := significand_pos hn
  have hpos := powerOfTwo_pos (gridIndex n - 1074)
  -- A double lies on the grid that its fields name.
  have hgrid : spacingExponent (ofFields n) = gridIndex n - 1074 := by
    have hlog : (significand n).log2 ≤ 52 := by
      have hlt := (Nat.log2_lt (by omega)).mpr (show significand n < 2 ^ 53 from hhigh)
      omega
    -- The order of the significand is 52, or less on the finest grid.
    rw [spacingExponent, ofFields, binaryOrder_digits hsig]
    rcases hlow with hzero | hlead
    · rw [hzero]
      omega
    · have hlog' : 52 ≤ (significand n).log2 :=
        (Nat.le_log2 (by omega)).mpr (show 2 ^ 52 ≤ significand n from hlead)
      omega
  rw [round_eq hgrid, ofFields, mul_div_cancel_right₀ _ (ne_of_gt hpos), ← Int.cast_natCast,
    nearestInt_intCast]

/-- Rounding a whole number of some power of two. -/
theorem round_digits {n : Nat} (hn : 0 < n) (e : Nat) {k : Nat} (hk : k = n.log2 + e - 1126) :
    round (n * powerOfTwo (e - 2148)) =
      ofFields (k * leadingOne +
        halfEven (n * 2 ^ (e - (k + 1074))) (2 ^ (k + 1074 - e))) := by
  have hpos := powerOfTwo_pos ((e : Int) - 2148)
  have hn' : (0 : Rat) < n := by exact_mod_cast hn
  have hx : 0 < (n : Rat) * powerOfTwo (e - 2148) := mul_pos hn' hpos
  -- The grid is the one that the order of the number asks for.
  have hgrid : spacingExponent ((n : Rat) * powerOfTwo (e - 2148)) = k - 1074 := by
    rw [spacingExponent, binaryOrder_digits hn]
    omega
  -- Of the two powers of two, one is absent.
  have hquot : (n : Rat) * powerOfTwo (e - 2148) / powerOfTwo (k - 1074) =
      ((n * 2 ^ (e - (k + 1074)) : Nat) : Rat) / ((2 ^ (k + 1074 - e) : Nat) : Rat) := by
    have hsum : ((e : Int) - 2148) + (k + 1074 - e : Nat) =
        (e - (k + 1074) : Nat) + ((k : Int) - 1074) := by omega
    have hpowers := powerOfTwo_add ((e : Int) - 2148) (k + 1074 - e : Nat)
    rw [hsum, powerOfTwo_add, powerOfTwo_natCast, powerOfTwo_natCast] at hpowers
    have hden : ((2 ^ (k + 1074 - e) : Nat) : Rat) ≠ 0 := by
      exact_mod_cast Nat.pos_iff_ne_zero.mp (Nat.two_pow_pos _)
    rw [div_eq_div_iff (ne_of_gt (powerOfTwo_pos _)) hden, mul_assoc, ← hpowers, Nat.cast_mul,
      mul_assoc]
  rcases place_bounds hx hgrid with ⟨hlow, hhigh⟩
  have hint : nearestInt ((n : Rat) * powerOfTwo (e - 2148) / powerOfTwo (k - 1074)) =
      halfEven (n * 2 ^ (e - (k + 1074))) (2 ^ (k + 1074 - e)) := by
    rw [hquot]
    exact nearestInt_div (Nat.two_pow_pos _)
  -- The nearest place is on the grid, its top included, so it makes up fields with it.
  have hlow' : k = 0 ∨
      leadingOne ≤ halfEven (n * 2 ^ (e - (k + 1074))) (2 ^ (k + 1074 - e)) := by
    refine hlow.imp_right (fun h => ?_)
    have hle := le_nearestInt h
    rw [hint] at hle
    exact_mod_cast hle
  have hhigh' : halfEven (n * 2 ^ (e - (k + 1074))) (2 ^ (k + 1074 - e)) ≤ 2 * leadingOne := by
    have hle := nearestInt_le hhigh
    rw [hint] at hle
    exact_mod_cast hle
  rw [round_eq hgrid, hint, ofFields_grid hlow' hhigh', Int.cast_natCast]

/-- Rounding a product is multiplying the fields. -/
theorem round_mul {n m : Nat} (hn : 0 < n) (hm : 0 < m) :
    round (ofFields n * ofFields m) = ofFields (product n m) := by
  -- The exact product is a whole number of a power of two.
  have hdigits : ofFields n * ofFields m =
      ((significand n * significand m : Nat) : Rat) *
        powerOfTwo ((gridIndex n + gridIndex m : Nat) - 2148) := by
    have hsum : ((gridIndex n + gridIndex m : Nat) : Int) - 2148 =
        ((gridIndex n : Int) - 1074) + (gridIndex m - 1074) := by
      push_cast
      omega
    rw [hsum, powerOfTwo_add, ofFields, ofFields]
    push_cast
    ring
  rw [hdigits, round_digits (Nat.mul_pos (significand_pos hn) (significand_pos hm)) _ rfl]
  rfl

/-- Multiplying by a number not below one makes no double smaller. -/
theorem le_product {n m : Nat} (hn : 0 < n) (hm : 1 ≤ ofFields m) : n ≤ product n m := by
  have hpos := ofFields_pos hn
  -- Nothing but zero has zero fields, and the factor is one at least.
  have hm' : 0 < m := by
    by_contra h
    rw [Nat.eq_zero_of_not_pos h, ofFields_zero] at hm
    exact absurd hm (by norm_num)
  have hle : ofFields n ≤ ofFields n * ofFields m := le_mul_of_one_le_right (le_of_lt hpos) hm
  -- Rounding keeps order, and the double is not changed by it.
  have hround := round_mono hpos hle
  rw [round_ofFields hn, round_mul hn hm'] at hround
  exact ofFields_strictMono.le_iff_le.mp hround

/-- A larger double has no smaller product. -/
theorem product_mono {n n' m : Nat} (hn : 0 < n) (hm : 0 < m) (h : n ≤ n') :
    product n m ≤ product n' m := by
  have hle : ofFields n * ofFields m ≤ ofFields n' * ofFields m :=
    mul_le_mul_of_nonneg_right (ofFields_strictMono.monotone h) (le_of_lt (ofFields_pos hm))
  have hround := round_mono (mul_pos (ofFields_pos hn) (ofFields_pos hm)) hle
  rw [round_mul hn hm, round_mul (Nat.lt_of_lt_of_le hn h) hm] at hround
  exact ofFields_strictMono.le_iff_le.mp hround

end Binary64

end Stencil
