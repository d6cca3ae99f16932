import Stencil.Number.Scientific
import Stencil.Proofs.Number.Fields

/-!
# Enlarging Small Numbers

A small magnitude is multiplied by the powers of ten in the table, each time if
it lies below a limit. Here that is done on the fields of the magnitude, and
the table holds the fields of the powers of ten.

Three things keep it in bounds. An entry that is used outweighs all later ones
together, so a larger magnitude never has a smaller exponent, and of two with
the same exponent it has the larger significand. What the limit of one entry
lets pass is brought up to the limit of the next, so in the end one is reached.
And below its limit an entry leads at most to ten.

Ten itself can be the end of it. The product of the last double below the limit
is rounded, and with four of the nine entries it is rounded to ten. No later
entry applies then, so the entry that did it is the last that was used, and the
exponent says which one that is.

## Main definitions

* `Scientific.Factor`, `Scientific.factors`: The table, as fields of doubles.
* `Scientific.enlargeFields`: Going through the table.

## Theorems

* `Scientific.ranges`: The three ranges of doubles.
* `Scientific.normalize_ofFields`: Normalizing a small double.
* `Scientific.enlargeFields_lex`: Larger magnitudes have larger forms.
* `Scientific.one_le_enlargeFields`: One is reached.
* `Scientific.enlargeFields_le_ten`: Ten is not exceeded.
* `Scientific.entry_of_ten`: Which entry can lead to ten.
-/

namespace Stencil

namespace Scientific

open Binary64

/-- An entry of the table: the exponent of its power of ten, and the fields of
    the limit below which it is used and of the power itself. -/
structure Factor where
  exponent : Nat
  limit : Nat
  power : Nat
  deriving DecidableEq

/-- The table. -/
def factors : List Factor :=
  [⟨256, 0x0AFE07B27DD78B14, 0x75154FDD7F73BF3C⟩,
    ⟨128, 0x2591544581B7DEC2, 0x5A827748F9301D32⟩,
    ⟨64, 0x32DA53FC9631D10D, 0x4D384F03E93FF9F5⟩,
    ⟨32, 0x398039D665896880, 0x4693B8B5B5056E17⟩,
    ⟨16, 0x3CD203AF9EE75616, 0x4341C37937E08000⟩,
    ⟨8, 0x3E7AD7F29ABCAF48, 0x4197D78400000000⟩,
    ⟨4, 0x3F50624DD2F1A9FC, 0x40C3880000000000⟩,
    ⟨2, 0x3FB999999999999A, 0x4059000000000000⟩,
    ⟨1, 0x3FF0000000000000, 0x4024000000000000⟩]

/-- The fields of one, of ten, and of the threshold for small magnitudes. -/
def one : Nat := 0x3FF0000000000000

def ten : Nat := 0x4024000000000000

def lowest : Nat := 0x3EE4F8B588E368F1

theorem ofFields_one : ofFields one = 1 := by
  decide +kernel

theorem ofFields_ten : ofFields ten = 10 := by
  decide +kernel

/-- Go through a table with the fields of a magnitude, and count up the
    exponents of the entries that are used. -/
def enlargeFields : List Factor → Nat → Nat → Nat × Nat
  | [], n, e => (n, e)
  | f :: rest, n, e =>
    if n < f.limit then enlargeFields rest (product n f.power) (e + f.exponent)
    else enlargeFields rest n e

/-- An entry holds what the program computes. -/
structure Exact (f : Factor) : Prop where
  limit_pos : 0 < f.limit
  limit : powerOfTen (1 - (f.exponent : Int)) = ofFields f.limit
  power : powerOfTen f.exponent = ofFields f.power
  one_le : 1 ≤ ofFields f.power

theorem factors_exact : ∀ f ∈ factors, Exact f := by
  -- The powers of ten are rounded products, and are computed as the program computes
  -- them.
  have hall : ∀ f ∈ factors, 0 < f.limit ∧
      powerOfTen (1 - (f.exponent : Int)) = ofFields f.limit ∧
      powerOfTen f.exponent = ofFields f.power ∧ 1 ≤ ofFields f.power := by
    decide +kernel
  intro f hf
  rcases hall f hf with ⟨hpos, hlimit, hpower, hone⟩
  exact ⟨hpos, hlimit, hpower, hone⟩

theorem Exact.power_pos {f : Factor} (h : Exact f) : 0 < f.power := by
  by_contra hzero
  have hone := h.one_le
  rw [Nat.eq_zero_of_not_pos hzero, ofFields_zero] at hone
  exact absurd hone (by norm_num)

theorem product_pos {n : Nat} (hn : 0 < n) {f : Factor} (h : Exact f) : 0 < product n f.power :=
  Nat.lt_of_lt_of_le hn (le_product hn h.one_le)

/-- Going through the table is what the program does, entry by entry. -/
theorem foldl_enlarge {fs : List Factor} (hfs : ∀ f ∈ fs, Exact f) {n : Nat} (hn : 0 < n)
    (e : Nat) :
    (fs.map (fun f => (f.exponent : Int))).foldl enlarge ⟨ofFields n, -(e : Int)⟩ =
      ⟨ofFields (enlargeFields fs n e).1, -((enlargeFields fs n e).2 : Int)⟩ := by
  induction fs generalizing n e with
  | nil => rfl
  | cons f rest ih =>
      have hf := hfs f List.mem_cons_self
      have hrest := fun g hg => hfs g (List.mem_cons_of_mem f hg)
      -- The program compares magnitudes, and the fields are in the same order.
      have hbelow : ofFields n < powerOfTen (1 - (f.exponent : Int)) ↔ n < f.limit := by
        rw [hf.limit]
        exact ofFields_strictMono.lt_iff_lt
      rw [List.map_cons, List.foldl_cons, enlarge, enlargeFields]
      -- Used or not, the entry leaves a double and an exponent for the others.
      by_cases hlt : n < f.limit
      · have hexponent : -(e : Int) - f.exponent = -((e + f.exponent : Nat) : Int) := by omega
        rw [if_pos (hbelow.mpr hlt), if_pos hlt, hf.power, round_mul hn hf.power_pos, hexponent]
        exact ih hrest (product_pos hn hf) (e + f.exponent)
      · rw [if_neg (fun h => hlt (hbelow.mp h)), if_neg hlt]
        exact ih hrest hn e

theorem lowerThreshold_eq : lowerThreshold = ofFields lowest := by
  decide +kernel

theorem upperThreshold_eq : upperThreshold = ofFields 0x416312D000000000 := by
  decide +kernel

theorem lowerThreshold_pos : 0 < lowerThreshold := by
  rw [lowerThreshold_eq]
  exact ofFields_pos (by decide)

theorem lowerThreshold_lt : lowerThreshold < upperThreshold := by
  rw [lowerThreshold_eq, upperThreshold_eq, ofFields_strictMono.lt_iff_lt]
  decide

theorem small_iff_le_lowest {n : Nat} :
    0 < ofFields n ∧ ofFields n ≤ lowerThreshold ↔ 0 < n ∧ n ≤ lowest := by
  rw [← ofFields_zero, lowerThreshold_eq, ofFields_strictMono.lt_iff_lt,
    ofFields_strictMono.le_iff_le]

/-- A double is large, or small, or in plain form. -/
theorem ranges (n : Nat) :
    upperThreshold ≤ ofFields n ∨ (0 < n ∧ n ≤ lowest) ∨
      ((ofFields n = 0 ∨ lowerThreshold < ofFields n) ∧ ofFields n < upperThreshold) := by
  by_cases hlarge : upperThreshold ≤ ofFields n
  · exact Or.inl hlarge
  · by_cases hsmall : 0 < n ∧ n ≤ lowest
    · exact Or.inr (Or.inl hsmall)
    · refine Or.inr (Or.inr ⟨?_, not_le.mp hlarge⟩)
      -- In terms of fields the rest is about whole numbers.
      rw [← ofFields_zero, lowerThreshold_eq, ofFields_strictMono.lt_iff_lt,
        ofFields_strictMono.injective.eq_iff]
      omega

/-- Between the thresholds nothing is done, and zero is left alone as well. -/
theorem normalize_plain {x : Rat} (hupper : x < upperThreshold)
    (hlower : x = 0 ∨ lowerThreshold < x) : normalize x = ⟨x, 0⟩ := by
  have hsmall : ¬ (0 < x ∧ x ≤ lowerThreshold) := by
    rintro ⟨hpos, hle⟩
    rcases hlower with hzero | hlt
    · exact ne_of_gt hpos hzero
    · exact not_le_of_gt hlt hle
  rw [normalize, if_neg (not_le.mpr hupper), if_neg hsmall]

/-- Up to the lower threshold the table is gone through for enlarging. -/
theorem normalize_small {n : Nat} (hn : 0 < n) (hsmall : n ≤ lowest) :
    normalize (ofFields n) = steps.foldl enlarge ⟨ofFields n, 0⟩ := by
  -- A small number is not a large one, so the first loop is skipped.
  have hupper : ¬ upperThreshold ≤ ofFields n := by
    rw [upperThreshold_eq, ofFields_strictMono.le_iff_le]
    unfold lowest at hsmall
    omega
  rw [normalize, if_neg hupper, if_pos (small_iff_le_lowest.mpr ⟨hn, hsmall⟩)]

/-- The form of a small double is found by going through the table. -/
theorem normalize_ofFields {n : Nat} (hn : 0 < n) (hsmall : n ≤ lowest) :
    normalize (ofFields n) =
      ⟨ofFields (enlargeFields factors n 0).1, -((enlargeFields factors n 0).2 : Int)⟩ := by
  have hsteps : steps = factors.map (fun f => (f.exponent : Int)) := rfl
  rw [normalize_small hn hsmall, hsteps]
  exact foldl_enlarge factors_exact hn 0

/-- The exponents of a table together. -/
def total : List Factor → Nat
  | [] => 0
  | f :: rest => f.exponent + total rest

/-- Every entry outweighs those behind it. -/
def Dominant : List Factor → Prop
  | [] => True
  | f :: rest => total rest < f.exponent ∧ Dominant rest

theorem dominant_factors : Dominant factors := by
  simp only [factors, Dominant, total]
  decide

/-- Going through a table adds the exponents of some of its entries, and of all of
    them at most. -/
theorem exponent_bounds (fs : List Factor) (n e : Nat) :
    e ≤ (enlargeFields fs n e).2 ∧ (enlargeFields fs n e).2 ≤ e + total fs := by
  induction fs generalizing n e with
  | nil => exact ⟨Nat.le_refl _, Nat.le_refl _⟩
  | cons f rest ih =>
      rw [enlargeFields, total]
      -- An entry that is used adds its exponent, another one adds nothing.
      by_cases hlt : n < f.limit
      · rw [if_pos hlt]
        have hrest := ih (product n f.power) (e + f.exponent)
        omega
      · rw [if_neg hlt]
        have hrest := ih n e
        omega

/-- A larger magnitude takes fewer powers of ten, or as many and then it is
    left with no smaller a significand. -/
theorem enlargeFields_lex {fs : List Factor} (hexact : ∀ f ∈ fs, Exact f) (hdom : Dominant fs)
    {n m : Nat} (hn : 0 < n) (h : n ≤ m) (e : Nat) :
    (enlargeFields fs m e).2 < (enlargeFields fs n e).2 ∨
      ((enlargeFields fs m e).2 = (enlargeFields fs n e).2 ∧
        (enlargeFields fs n e).1 ≤ (enlargeFields fs m e).1) := by
  induction fs generalizing n m e with
  | nil => exact Or.inr ⟨rfl, h⟩
  | cons f rest ih =>
      have hf := hexact f List.mem_cons_self
      have hrest := fun g hg => hexact g (List.mem_cons_of_mem f hg)
      rw [enlargeFields, enlargeFields]
      -- If the larger is below the limit, so is the smaller, and the entry is used for
      -- both.
      by_cases hm : m < f.limit
      · rw [if_pos hm, if_pos (by omega : n < f.limit)]
        exact ih hrest hdom.2 (product_pos hn hf) (product_mono hn hf.power_pos h) (e + f.exponent)
      · rw [if_neg hm]
        by_cases hlt : n < f.limit
        · -- The entry is used for one of them, and the rest cannot make up for it.
          rw [if_pos hlt]
          have hlow := (exponent_bounds rest (product n f.power) (e + f.exponent)).1
          have hhigh := (exponent_bounds rest m e).2
          have hweight := hdom.1
          exact Or.inl (by omega)
        · rw [if_neg hlt]
          exact ih hrest hdom.2 hn h e

/-- What has reached `low` is brought up to the limit of each entry in turn. -/
def Climbs (low : Nat) : List Factor → Prop
  | [] => one ≤ low
  | f :: rest => f.limit ≤ product low f.power ∧ Climbs f.limit rest

theorem climbs_factors : Climbs 1 factors := by
  simp only [factors, Climbs]
  decide +kernel

/-- What is climbed to is one at least, by induction on the table: each entry brings a
    magnitude to where the next one expects it. -/
theorem one_le_enlargeFields {fs : List Factor} (hexact : ∀ f ∈ fs, Exact f) {low : Nat}
    (hlow : 0 < low) (hclimbs : Climbs low fs) {n : Nat} (h : low ≤ n) (e : Nat) :
    one ≤ (enlargeFields fs n e).1 := by
  induction fs generalizing low n e with
  | nil => exact Nat.le_trans hclimbs h
  | cons f rest ih =>
      have hf := hexact f List.mem_cons_self
      have hrest := fun g hg => hexact g (List.mem_cons_of_mem f hg)
      rw [enlargeFields]
      by_cases hlt : n < f.limit
      · -- The entry brings it up to its own limit, which is where the rest begins.
        rw [if_pos hlt]
        have hle := product_mono hlow hf.power_pos h
        exact ih hrest hf.limit_pos hclimbs.2 (Nat.le_trans hclimbs.1 hle) _
      -- Otherwise it is at the limit without the entry.
      · rw [if_neg hlt]
        exact ih hrest hf.limit_pos hclimbs.2 (Nat.not_lt.mp hlt) e

/-- Below its limit an entry leads at most to ten, and ten is not below it. -/
structure Capped (f : Factor) : Prop where
  limit_le : f.limit ≤ ten
  product_le : product (f.limit - 1) f.power ≤ ten

theorem factors_capped : ∀ f ∈ factors, Capped f := by
  -- The last double below a limit is the one that comes closest to ten.
  have hall : ∀ f ∈ factors, f.limit ≤ ten ∧ product (f.limit - 1) f.power ≤ ten := by
    decide +kernel
  intro f hf
  exact ⟨(hall f hf).1, (hall f hf).2⟩

theorem Capped.product_le_of_lt {f : Factor} (hcap : Capped f) (hf : Exact f) {n : Nat}
    (hn : 0 < n) (hlt : n < f.limit) : product n f.power ≤ ten :=
  Nat.le_trans (product_mono hn hf.power_pos (by omega)) hcap.product_le

/-- No entry is used for ten. -/
theorem enlargeFields_ten {fs : List Factor} (hcap : ∀ f ∈ fs, Capped f) (e : Nat) :
    enlargeFields fs ten e = (ten, e) := by
  induction fs with
  | nil => rfl
  | cons f rest ih =>
      have hlimit := (hcap f List.mem_cons_self).limit_le
      rw [enlargeFields, if_neg (by omega)]
      exact ih (fun g hg => hcap g (List.mem_cons_of_mem f hg))

/-- No entry leads beyond ten, so all of them together do not. -/
theorem enlargeFields_le_ten {fs : List Factor} (hexact : ∀ f ∈ fs, Exact f)
    (hcap : ∀ f ∈ fs, Capped f) {n : Nat} (hn : 0 < n) (h : n ≤ ten) (e : Nat) :
    (enlargeFields fs n e).1 ≤ ten := by
  induction fs generalizing n e with
  | nil => exact h
  | cons f rest ih =>
      have hf := hexact f List.mem_cons_self
      have hrest := fun g hg => hexact g (List.mem_cons_of_mem f hg)
      have hrest' := fun g hg => hcap g (List.mem_cons_of_mem f hg)
      rw [enlargeFields]
      by_cases hlt : n < f.limit
      -- The entry is used below its limit only, and there it leads to ten at most.
      · rw [if_pos hlt]
        exact ih hrest hrest' (product_pos hn hf)
          ((hcap f List.mem_cons_self).product_le_of_lt hf hn hlt) _
      · rw [if_neg hlt]
        exact ih hrest hrest' hn h e

/-- A small double ends between one and ten, both included. -/
theorem small_bounds {n : Nat} (hn : 0 < n) (hsmall : n ≤ lowest) :
    one ≤ (enlargeFields factors n 0).1 ∧ (enlargeFields factors n 0).1 ≤ ten := by
  have hten : n ≤ ten := Nat.le_trans hsmall (by decide)
  exact ⟨one_le_enlargeFields factors_exact (by decide) climbs_factors hn 0,
    enlargeFields_le_ten factors_exact factors_capped hn hten 0⟩

/-- Every exponent is a multiple of twice each one behind it, as the places of a
    binary number are. -/
def Halving (fs : List Factor) : Prop :=
  fs.Pairwise (fun f g => 2 * g.exponent ∣ f.exponent)

theorem halving_factors : Halving factors := by
  simp only [Halving, factors]
  decide

/-- If ten is the end of it, the entry that led there was the last one used, and
    its exponent is the lowest place of the sum. -/
theorem entry_of_ten {fs : List Factor} (hexact : ∀ f ∈ fs, Exact f) (hcap : ∀ f ∈ fs, Capped f)
    (hhalving : Halving fs) {n : Nat} (hn : 0 < n) (hlt : n < ten) (e : Nat)
    (hten : (enlargeFields fs n e).1 = ten) :
    ∃ f ∈ fs, product (f.limit - 1) f.power = ten ∧
      ∃ sum, (enlargeFields fs n e).2 = e + sum ∧
        sum % (2 * f.exponent) = f.exponent % (2 * f.exponent) := by
  induction fs generalizing n e with
  | nil =>
      rw [enlargeFields] at hten
      omega
  | cons f rest ih =>
      have hf := hexact f List.mem_cons_self
      have hcapf := hcap f List.mem_cons_self
      have hrest := fun g hg => hexact g (List.mem_cons_of_mem f hg)
      have hrest' := fun g hg => hcap g (List.mem_cons_of_mem f hg)
      rw [Halving, List.pairwise_cons] at hhalving
      rw [enlargeFields] at hten ⊢
      by_cases hused : n < f.limit
      · rw [if_pos hused] at hten ⊢
        have hle := hcapf.product_le_of_lt hf hn hused
        by_cases hreached : product n f.power = ten
        · -- Ten is reached here, so it is what the last double below the limit gives.
          refine ⟨f, List.mem_cons_self, ?_, f.exponent, ?_, rfl⟩
          · have hmono := product_mono hn hf.power_pos (by omega : n ≤ f.limit - 1)
            exact Nat.le_antisymm hcapf.product_le (by omega)
          · rw [hreached, enlargeFields_ten hrest']
        · -- A later entry leads there, and this one is a multiple of its place.
          rcases ih hrest hrest' hhalving.2 (product_pos hn hf) (by omega) _ hten with
            ⟨g, hg, hproduct, sum, hsum, hmod⟩
          refine ⟨g, List.mem_cons_of_mem f hg, hproduct, f.exponent + sum, by omega, ?_⟩
          rw [Nat.add_mod, Nat.mod_eq_zero_of_dvd (hhalving.1 g hg), Nat.zero_add, Nat.mod_mod,
            hmod]
      -- An entry that is not used has no part in the sum.
      · rw [if_neg hused] at hten ⊢
        rcases ih hrest hrest' hhalving.2 hn hlt e hten with ⟨g, hg, hfound⟩
        exact ⟨g, List.mem_cons_of_mem f hg, hfound⟩

/-- Four entries can lead to ten. -/
theorem exponent_of_ten {n : Nat} (hn : 0 < n) (hlt : n < ten)
    (hten : (enlargeFields factors n 0).1 = ten) :
    (enlargeFields factors n 0).2 % 512 = 256 ∨ (enlargeFields factors n 0).2 % 128 = 64 ∨
      (enlargeFields factors n 0).2 % 64 = 32 ∨ (enlargeFields factors n 0).2 % 4 = 2 := by
  -- Which entries give ten for the last double below their limit is computed.
  have hfour : ∀ f ∈ factors, product (f.limit - 1) f.power = ten →
      f.exponent = 256 ∨ f.exponent = 64 ∨ f.exponent = 32 ∨ f.exponent = 2 := by
    decide +kernel
  rcases entry_of_ten factors_exact factors_capped halving_factors hn hlt 0 hten with
    ⟨f, hf, hproduct, sum, hsum, hmod⟩
  rw [hsum, Nat.zero_add]
  -- The exponent of the entry is the lowest place of the sum, so twice it tells the sum
  -- from others.
  rcases hfour f hf hproduct with h | h | h | h
  · rw [h] at hmod
    exact Or.inl hmod
  · rw [h] at hmod
    exact Or.inr (Or.inl hmod)
  · rw [h] at hmod
    exact Or.inr (Or.inr (Or.inl hmod))
  · rw [h] at hmod
    exact Or.inr (Or.inr (Or.inr hmod))

end Scientific

end Stencil
