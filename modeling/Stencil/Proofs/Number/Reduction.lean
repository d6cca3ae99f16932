import Stencil.Proofs.Number.Normalizing

/-!
# Reducing Large Numbers

A large magnitude is divided by the powers of ten in the table, each time if it
reaches it. As with small magnitudes, an entry that is used outweighs all later
ones together, so a larger magnitude never has a smaller exponent, and of two
with the same exponent it has the larger significand.

Ten is not reached here. What lies below the square of a power of ten is divided
by it to less than that power, also where neither is a double: the quotient of
the last double below the square is rounded to the last double below the power.
That is a question about one quotient for each entry, because a double that is
less than another is at most the one before it. Nothing reaches an entry that
has been used, then, and behind the last entry nothing reaches ten.

## Main definitions

* `Scientific.Outweighs`: Every entry is more than those behind it together.
* `Scientific.powerFields`: The fields of a power of ten.
* `Scientific.Sinks`: A table brings a bound down to below ten.

## Theorems

* `Scientific.foldl_reduce_lex`: Larger magnitudes have larger forms.
* `Scientific.one_le_foldl_reduce`: One is kept.
* `Scientific.foldl_reduce_lt_ten`: Ten is not reached.
* `Scientific.large_form`: The form of a large double.
-/

namespace Stencil

namespace Scientific

open Binary64

/-- Every entry is more than those behind it together. -/
def Outweighs : List Int → Prop
  | [] => True
  | k :: rest => rest.sum < k ∧ Outweighs rest

theorem outweighs_steps : Outweighs steps := by
  simp only [steps, Outweighs]
  decide

/-- A table counts the exponent up by its sum at most. -/
theorem exponent_foldl_reduce {ks : List Int} (hks : ∀ k ∈ ks, 0 ≤ k) (form : Form) :
    form.exponent ≤ (ks.foldl reduce form).exponent ∧
      (ks.foldl reduce form).exponent ≤ form.exponent + ks.sum := by
  induction ks generalizing form with
  | nil => exact ⟨le_refl _, by rw [List.sum_nil, add_zero]; exact le_refl _⟩
  | cons k rest ih =>
      have hk := hks k List.mem_cons_self
      have hrest := ih (fun l hl => hks l (List.mem_cons_of_mem k hl)) (reduce form k)
      -- The entry is left out or counted.
      have hstep : (reduce form k).exponent = form.exponent ∨
          (reduce form k).exponent = form.exponent + k := by
        rw [reduce]
        split
        · exact Or.inr rfl
        · exact Or.inl rfl
      rw [List.foldl_cons, List.sum_cons]
      omega

/-- A larger magnitude takes more powers of ten, or as many and then it is left
    with no smaller a significand. -/
theorem foldl_reduce_lex {ks : List Int} (hks : ∀ k ∈ ks, 0 ≤ k) (hweights : Outweighs ks)
    {x y : Rat} (hx : 0 < x) (h : x ≤ y) (e : Int) :
    (ks.foldl reduce ⟨x, e⟩).exponent < (ks.foldl reduce ⟨y, e⟩).exponent ∨
      ((ks.foldl reduce ⟨x, e⟩).exponent = (ks.foldl reduce ⟨y, e⟩).exponent ∧
        (ks.foldl reduce ⟨x, e⟩).significand ≤ (ks.foldl reduce ⟨y, e⟩).significand) := by
  induction ks generalizing x y e with
  | nil => exact Or.inr ⟨rfl, h⟩
  | cons k rest ih =>
      have hpower := powerOfTen_pos (hks k List.mem_cons_self)
      have hrest := fun l hl => hks l (List.mem_cons_of_mem k hl)
      rw [List.foldl_cons, List.foldl_cons, reduce, reduce]
      by_cases hless : powerOfTen k ≤ x
      -- The entry is used for both, and the rounded quotients are in order.
      · have hquot : x / powerOfTen k ≤ y / powerOfTen k :=
          div_le_div_of_nonneg_right h (le_of_lt hpower)
        have hpos : 1 ≤ x / powerOfTen k := (one_le_div hpower).mpr hless
        rw [if_pos hless, if_pos (le_trans hless h)]
        exact ih hrest hweights.2 (lt_of_lt_of_le zero_lt_one (one_le_round hpos))
          (round_mono (lt_of_lt_of_le zero_lt_one hpos) hquot) (e + k)
      · rw [if_neg hless]
        by_cases hmore : powerOfTen k ≤ y
        · -- The entry is used for one of them, and the rest cannot make up for it.
          rw [if_pos hmore]
          have hhigh := (exponent_foldl_reduce hrest ⟨x, e⟩).2
          have hlow := (exponent_foldl_reduce hrest
            ⟨Binary64.round (y / powerOfTen k), e + k⟩).1
          have hweight := hweights.1
          simp only at hhigh hlow ⊢
          exact Or.inl (by omega)
        · rw [if_neg hmore]
          exact ih hrest hweights.2 hx h e

/-- A significand of one or more stays there, as no entry divides by more than it. -/
theorem one_le_foldl_reduce {ks : List Int} (hks : ∀ k ∈ ks, 0 ≤ k) {form : Form}
    (h : 1 ≤ form.significand) : 1 ≤ (ks.foldl reduce form).significand := by
  induction ks generalizing form with
  | nil => exact h
  | cons k rest ih =>
      have hpower := powerOfTen_pos (hks k List.mem_cons_self)
      rw [List.foldl_cons]
      refine ih (fun l hl => hks l (List.mem_cons_of_mem k hl)) ?_
      rw [reduce]
      split
      · next hused => exact one_le_round ((one_le_div hpower).mpr hused)
      · exact h

/-- The fields of a power of ten. -/
def powerFields (k : Int) : Nat := magnitudeBits (powerOfTen k)

/-- What does not exceed `high` is brought down to below each power of the table in
    turn, and in the end to below ten. -/
def Sinks (high : Nat) : List Int → Prop
  | [] => high < ten
  | k :: rest => powerOfTen k = ofFields (powerFields k) ∧
    Binary64.round (ofFields high / powerOfTen k) < powerOfTen k ∧ Sinks (powerFields k - 1) rest

/-- The largest double is brought down to below ten. -/
theorem sinks_steps : Sinks 0x7FEFFFFFFFFFFFFF steps := by
  simp only [steps, Sinks]
  decide +kernel

/-- What does not exceed a bound that sinks to below ten ends below ten, as a double.
    By induction on the table, where the bound is handed on in fields, as those tell
    what stands just below a power. -/
theorem foldl_reduce_lt_ten {ks : List Int} (hks : ∀ k ∈ ks, 0 ≤ k) {high : Nat}
    (hsinks : Sinks high ks) {n : Nat} (h : n ≤ high) (e : Int) :
    ∃ m < ten, (ks.foldl reduce ⟨ofFields n, e⟩).significand = ofFields m := by
  induction ks generalizing high n e with
  | nil => exact ⟨n, lt_of_le_of_lt h hsinks, rfl⟩
  | cons k rest ih =>
      have hpower := powerOfTen_pos (hks k List.mem_cons_self)
      have hrest := fun l hl => hks l (List.mem_cons_of_mem k hl)
      rcases hsinks with ⟨hfields, hquot, hbelow⟩
      rw [List.foldl_cons, reduce]
      by_cases hused : powerOfTen k ≤ ofFields n
      · have hpos := div_pos (lt_of_lt_of_le hpower hused) hpower
        have hle := round_mono hpos
          (div_le_div_of_nonneg_right (ofFields_strictMono.monotone h) (le_of_lt hpower))
        -- The quotient is a double that is less than the power, so at most the one before.
        rcases exists_ofFields_round hpos with ⟨m, hm⟩
        have hless := lt_of_le_of_lt hle hquot
        rw [hm, hfields, ofFields_strictMono.lt_iff_lt] at hless
        rw [if_pos hused, hm]
        exact ih hrest hbelow (Nat.le_sub_one_of_lt hless) (e + k)
      -- A double below the power does not exceed the one before it.
      · rw [hfields, ofFields_strictMono.le_iff_le, not_le] at hused
        rw [hfields, if_neg (by rw [ofFields_strictMono.le_iff_le]; omega)]
        exact ih hrest hbelow (Nat.le_sub_one_of_lt hused) e

/-- The form of the first large number and of the largest double of all. -/
theorem foldl_reduce_first : (steps.foldl reduce ⟨upperThreshold, 0⟩).exponent = 7 := by
  decide +kernel

theorem foldl_reduce_largest :
    (steps.foldl reduce ⟨ofFields 0x7FEFFFFFFFFFFFFF, 0⟩).exponent = 308 ∧
      (steps.foldl reduce ⟨ofFields 0x7FEFFFFFFFFFFFFF, 0⟩).significand < 2 := by
  decide +kernel

/-- What is known of the form of a large number. -/
structure LargeForm (form : Form) : Prop where
  one_le : 1 ≤ form.significand
  lt_ten : form.significand < 10
  exponent_ge : 7 ≤ form.exponent
  exponent_le : form.exponent ≤ 308
  /-- With the largest exponent there is room for a carry. -/
  lt_two : form.exponent = 308 → form.significand < 2

theorem normalize_large {x : Rat} (h : upperThreshold ≤ x) :
    normalize x = steps.foldl reduce ⟨x, 0⟩ := if_pos h

/-- A large number has a digit in front of the point, and an exponent between those of
    the first large number and of the largest double. -/
theorem large_form {n : Nat} (hn : n < 0x7FF * leadingOne) (h : upperThreshold ≤ ofFields n) :
    LargeForm (normalize (ofFields n)) := by
  have hlargest := le_largest hn
  have hthreshold : (1 : Rat) ≤ upperThreshold := by
    rw [upperThreshold_eq_pow]
    norm_num
  have hpos := lt_of_lt_of_le zero_lt_one hthreshold
  -- The number stands between the first large one and the largest, and forms keep that
  -- order.
  have hlow := foldl_reduce_lex steps_nonneg outweighs_steps hpos h 0
  have hhigh := foldl_reduce_lex steps_nonneg outweighs_steps (lt_of_lt_of_le hpos h)
    (ofFields_strictMono.monotone hlargest) 0
  rcases foldl_reduce_lt_ten steps_nonneg sinks_steps hlargest 0 with ⟨m, hm, hsignificand⟩
  have hone := one_le_foldl_reduce steps_nonneg
    (show 1 ≤ (Form.mk (ofFields n) 0).significand from le_trans hthreshold h)
  rw [foldl_reduce_first] at hlow
  rw [foldl_reduce_largest.1] at hhigh
  rw [normalize_large h]
  refine ⟨hone, ?_, by omega, by omega, fun hmost => ?_⟩
  · rw [hsignificand, ← ofFields_ten, ofFields_strictMono.lt_iff_lt]
    exact hm
  -- With the exponent of the largest double, its significand is a bound too.
  · rw [hmost] at hhigh
    rcases hhigh with hless | ⟨-, hle⟩
    · exact absurd hless (lt_irrefl _)
    · exact lt_of_le_of_lt hle foldl_reduce_largest.2

end Scientific

end Stencil
