import Stencil.Number.Precision
import Mathlib.Data.List.DropRight
import Mathlib.Data.Rat.Defs
import Mathlib.Tactic.NormNum
import Mathlib.Tactic.Ring

/-!
# The Digits of a Fraction

The digits behind a point are worth a number below one, and zeros at the end add
nothing to it. So a fraction has many spellings and one that is shortest. That
one appears if all digits are asked for; if a number of places is asked for, as
many digits appear, and they are worth what is left when the rest is cut off.

Which of the two a spec asks for depends on its first two characters alone.

## Main definitions

* `Numeral.fractionWorth`: What digits behind a point are worth.
* `Numeral.Shortest`: The shortest digits worth a number.
* `Precision.Asks`: A spec asks for a precision.
* `Precision.Shown`: The digits that a precision shows of a fraction.

## Theorems

* `Precision.asks_ofSpec`: A spec asks for the precision that is read from it.
* `Precision.worth_fixedDigits`: The digits of a number are worth that number,
  as far as there are places.
* `Precision.shortest_full`: All digits are the shortest ones.
* `Precision.shown_select`: The digits selected are those to be shown.
-/

namespace Stencil

namespace Numeral

/-- What digits behind a point are worth. -/
def fractionWorth (digits : Text) : Rat := (Nat.ofDigitChars 10 digits 0 : Nat) / 10 ^ digits.length

/-- Digits behind a point that are worth `x`, and there are no fewer that are. -/
structure Shortest (x : Rat) (digits : Text) : Prop where
  isDigit : ∀ c ∈ digits, c.isDigit = true
  worth : fractionWorth digits = x
  shortest : ∀ other : Text, (∀ c ∈ other, c.isDigit = true) → fractionWorth other = x →
    digits.length ≤ other.length

theorem ofDigitChars_concat (t : Text) (c : Char) :
    Nat.ofDigitChars 10 (t ++ [c]) 0 = 10 * Nat.ofDigitChars 10 t 0 + (c.toNat - 48) := by
  rw [Nat.ofDigitChars_append, Nat.ofDigitChars_cons, Nat.ofDigitChars_nil]
  rfl

theorem toNat_of_isDigit {c : Char} (h : c.isDigit = true) : 48 ≤ c.toNat ∧ c.toNat ≤ 57 := by
  rw [Char.isDigit, Bool.and_eq_true, decide_eq_true_eq, decide_eq_true_eq] at h
  exact h

theorem fractionWorth_eq_iff {s t : Text} : fractionWorth s = fractionWorth t ↔
    Nat.ofDigitChars 10 s 0 * 10 ^ t.length = Nat.ofDigitChars 10 t 0 * 10 ^ s.length := by
  have hpos : ∀ n : Nat, (10 : Rat) ^ n ≠ 0 := fun n => pow_ne_zero n (by norm_num)
  rw [fractionWorth, fractionWorth, div_eq_div_iff (hpos _) (hpos _)]
  exact_mod_cast Iff.rfl

theorem fractionWorth_zeros (t : Text) (k : Nat) :
    fractionWorth (t ++ List.replicate k '0') = fractionWorth t := by
  rw [fractionWorth_eq_iff, Nat.ofDigitChars_append, Nat.ofDigitChars_replicate_zero,
    List.length_append, List.length_replicate, Nat.pow_add]
  ring

/-- Fewer digits of the same worth leave a zero at the end. -/
theorem length_le_of_last {t other : Text} {c : Char} (hdigit : c.isDigit = true) (hlast : c ≠ '0')
    (h : fractionWorth other = fractionWorth (t ++ [c])) :
    (t ++ [c]).length ≤ other.length := by
  by_contra hless
  rw [fractionWorth_eq_iff] at h
  rw [not_le, List.length_append, List.length_singleton] at hless
  -- The longer digits have to be worth a multiple of ten, so the last of them is a zero.
  rcases Nat.exists_eq_add_of_lt hless with ⟨k, hk⟩
  have hpow : 10 ^ (t ++ [c]).length = 10 ^ other.length * (10 * 10 ^ k) := by
    rw [List.length_append, List.length_singleton, hk, ← Nat.pow_succ', ← Nat.pow_add]
    congr 1
  have hworth : Nat.ofDigitChars 10 (t ++ [c]) 0 = 10 * (Nat.ofDigitChars 10 other 0 * 10 ^ k) := by
    refine Nat.eq_of_mul_eq_mul_right (Nat.pow_pos (by decide) : 0 < 10 ^ other.length) ?_
    rw [← h, hpow]
    ring
  have hbounds := toNat_of_isDigit hdigit
  rw [ofDigitChars_concat] at hworth
  refine hlast (Char.toNat_inj.mp ?_)
  rw [show '0'.toNat = 48 from rfl]
  omega

end Numeral

namespace Precision

open Numeral

/-- A spec asks for a precision, by its first two characters. -/
inductive Asks : Text → Precision → Prop
  | nothing : Asks [] full
  | other {c : Char} (rest : Text) : c ≠ '.' → Asks (c :: rest) full
  | nine (rest : Text) : Asks ('.' :: '9' :: rest) full
  | digit {n : Nat} (rest : Text) : n < 9 → Asks ('.' :: Nat.digitChar n :: rest) (places n)
  | point : Asks ['.'] (places 0)
  | nondigit {c : Char} (rest : Text) : c.isDigit = false → Asks ('.' :: c :: rest) (places 0)

theorem ofSpec_other {c : Char} (rest : Text) (h : c ≠ '.') : ofSpec (c :: rest) = full := by
  rw [ofSpec]
  · exact fun heq => h (List.cons.inj heq).1
  · exact fun d more heq => h (List.cons.inj heq).1

/-- What is read from a spec is what the spec asks for, by cases on the characters
    that are looked at. -/
theorem asks_ofSpec (spec : Text) : Asks spec (ofSpec spec) := by
  rcases spec with _ | ⟨c, rest⟩
  -- No spec asks for all digits.
  · exact .nothing
  by_cases hpoint : c = '.'
  · subst hpoint
    rcases rest with _ | ⟨d, rest⟩
    · exact .point
    rw [ofSpec]
    split
    -- Nine places are all there are.
    · next hnine => rw [hnine]; exact .nine rest
    · next hnine =>
        split
        · next hdigit =>
            have hbounds := toNat_of_isDigit hdigit
            have hless : d.toNat - 48 < 9 := by
              have hne : d.toNat ≠ 57 := fun heq => hnine (Char.toNat_inj.mp heq)
              omega
            -- A digit is the character of its own value.
            have hchar : Nat.digitChar (d.toNat - 48) = d := by
              apply Char.toNat_inj.mp
              rw [Nat.toNat_digitChar_of_lt_ten (by omega)]
              omega
            have hasks := Asks.digit rest hless
            rw [hchar] at hasks
            exact hasks
        · next hdigit => exact .nondigit rest (Bool.eq_false_iff.mpr hdigit)
  · rw [ofSpec_other rest hpoint]
    exact .other rest hpoint

/-- What a spec asks for is what is read from it, so it asks for one precision only.
    -/
theorem Asks.ofSpec_eq {spec : Text} {p : Precision} (h : Asks spec p) : ofSpec spec = p := by
  cases h with
  | nothing => rfl
  | other rest hc => exact ofSpec_other rest hc
  | nine rest => rfl
  | @digit n rest hn =>
      -- Nine is asked about first, and this digit is less.
      have hnine : Nat.digitChar n ≠ '9' := by
        rw [ne_eq, Nat.digitChar_eq_nine]
        omega
      have hdigit : (Nat.digitChar n).isDigit = true := by
        rw [Nat.isDigit_digitChar, decide_eq_true_eq]
        omega
      rw [ofSpec, if_neg hnine, if_pos hdigit]
      exact congrArg places (Nat.toNat_digitChar_sub_48_of_lt_ten (by omega))
  | point => rfl
  | nondigit rest hc =>
      -- What is no digit is not the digit nine either.
      rw [ofSpec, if_neg, hc, if_neg Bool.false_ne_true]
      intro hnine
      rw [hnine] at hc
      exact absurd hc (by decide)

theorem Asks.places_lt {spec : Text} {n : Nat} (h : Asks spec (places n)) : n < 9 := by
  cases h with
  | digit _ hn => exact hn
  | point => exact Nat.zero_lt_succ 8
  | nondigit => exact Nat.zero_lt_succ 8

/-- The digits that are shown of a fraction of `total` digits: the shortest ones if
    all are asked for, and otherwise as many as are asked for, worth what is left
    of the fraction when the rest is cut off. -/
inductive Shown (total fraction : Nat) : Precision → Text → Prop
  | full {digits : Text} : (digits = [] ↔ fraction = 0) →
    Shortest (fraction / 10 ^ total) digits → Shown total fraction full digits
  | places {n : Nat} {digits : Text} : digits.length = n → (∀ c ∈ digits, c.isDigit = true) →
    fractionWorth digits = ((fraction / 10 ^ (total - n) : Nat) : Rat) / 10 ^ n →
    Shown total fraction (places n) digits

theorem length_fixedDigits (width n : Nat) : (fixedDigits width n).length = width := by
  induction width generalizing n with
  | zero => rfl
  | succ width ih => rw [fixedDigits, List.length_append, ih, List.length_singleton]

theorem isDigit_fixedDigits (width n : Nat) : ∀ c ∈ fixedDigits width n, c.isDigit = true := by
  induction width generalizing n with
  | zero => exact fun c hc => absurd hc List.not_mem_nil
  | succ width ih =>
      intro c hc
      rw [fixedDigits, List.mem_append, List.mem_singleton] at hc
      rcases hc with hc | rfl
      · exact ih (n / 10) c hc
      · rw [Nat.isDigit_digitChar, decide_eq_true_eq]
        omega

/-- Digit by digit, as far as there are places. -/
theorem worth_fixedDigits (width n : Nat) :
    Nat.ofDigitChars 10 (fixedDigits width n) 0 = n % 10 ^ width := by
  induction width generalizing n with
  | zero => rw [fixedDigits, Nat.ofDigitChars_nil, Nat.pow_zero, Nat.mod_one]
  | succ width ih =>
      -- The last digit is the remainder by ten, and the others are the digits of the
      -- quotient.
      rw [fixedDigits, ofDigitChars_concat, ih,
        Nat.toNat_digitChar_sub_48_of_lt_ten (Nat.mod_lt n (by decide)), Nat.pow_succ',
        Nat.mod_mul]
      omega

/-- What is dropped is zeros. -/
theorem exists_zeros (t : Text) : ∃ k, t = dropTrailingZeros t ++ List.replicate k '0' := by
  refine ⟨(t.rtakeWhile (· = '0')).length, ?_⟩
  -- All that is dropped satisfies the test it is dropped by.
  have hzeros : t.rtakeWhile (· = '0') =
      List.replicate (t.rtakeWhile (· = '0')).length '0' := by
    refine List.eq_replicate_of_mem (fun c hc => ?_)
    have hzero := List.mem_rtakeWhile_imp hc
    rwa [decide_eq_true_eq] at hzero
  rw [← hzeros]
  exact List.rdropWhile_append_rtakeWhile.symm

theorem ne_zero_of_last {t u : Text} {c : Char} (h : dropTrailingZeros t = u ++ [c]) :
    c ≠ '0' := by
  have hdrop : t.rdropWhile (· = '0') = u ++ [c] := h
  have hne : t.rdropWhile (· = '0') ≠ [] := by
    rw [hdrop]
    exact List.concat_ne_nil c u
  -- Dropping stops at a character that is no zero, if it does not drop all.
  have hlast := List.rdropWhile_last_not (· = '0') t hne
  simp only [hdrop, List.getLast_append_singleton, decide_eq_true_eq] at hlast
  exact hlast

theorem dropTrailingZeros_subset (t : Text) : dropTrailingZeros t ⊆ t :=
  List.IsPrefix.subset (List.rdropWhile_prefix (· = '0') t)

theorem isDigit_select (precision : Precision) (digits fraction : Nat) :
    ∀ c ∈ precision.select digits fraction, c.isDigit = true := by
  cases precision with
  | full =>
      exact fun c hc => isDigit_fixedDigits digits fraction c
        (dropTrailingZeros_subset _ hc)
  | places n => exact isDigit_fixedDigits _ _

section

variable {total fraction : Nat} (h : fraction < 10 ^ total)

include h

/-- Dropping zeros changes nothing about the worth. -/
theorem fractionWorth_full :
    fractionWorth (select total fraction full) = fraction / 10 ^ total := by
  rcases exists_zeros (fixedDigits total fraction) with ⟨k, hk⟩
  -- With the zeros put back these are all the places there are.
  rw [select, ← fractionWorth_zeros _ k, ← hk, fractionWorth, worth_fixedDigits,
    length_fixedDigits, Nat.mod_eq_of_lt h]

/-- All digits of a fraction are the shortest ones worth it. -/
theorem shortest_full : Shortest (fraction / 10 ^ total) (select total fraction full) := by
  have hdigits := isDigit_select full total fraction
  have hworth := fractionWorth_full h
  refine ⟨hdigits, hworth, fun other _ hother => ?_⟩
  -- No digits cannot be shortened, and others end in one that is not zero.
  rcases List.eq_nil_or_concat' (select total fraction full) with hnil | ⟨t, c, hlast⟩
  · rw [hnil]
    exact Nat.zero_le _
  · rw [hlast] at hdigits
    rw [← hworth, hlast] at hother
    rw [hlast]
    exact length_le_of_last (hdigits c List.mem_concat_self) (ne_zero_of_last hlast) hother

/-- No digits are left exactly if the fraction is zero. -/
theorem full_eq_nil_iff : select total fraction full = [] ↔ fraction = 0 := by
  have hpow : (10 : Rat) ^ total ≠ 0 := pow_ne_zero total (by norm_num)
  have hworth := fractionWorth_full h
  constructor
  · intro hnil
    rw [hnil, fractionWorth, Nat.ofDigitChars_nil, Nat.cast_zero, zero_div, eq_comm,
      div_eq_zero_iff, or_iff_left hpow] at hworth
    exact_mod_cast hworth
  · intro hzero
    -- No digits at all are worth zero as well.
    refine List.eq_nil_of_length_eq_zero (Nat.le_zero.mp ?_)
    refine (shortest_full h).shortest [] (fun c hc => absurd hc List.not_mem_nil) ?_
    rw [fractionWorth, Nat.ofDigitChars_nil, hzero, Nat.cast_zero, zero_div, zero_div]

/-- The digits that a precision selects are those that it shows. -/
theorem shown_select {precision : Precision} (hplaces : ∀ n, precision = places n → n ≤ total) :
    Shown total fraction precision (select total fraction precision) := by
  have hdigits := isDigit_select precision total fraction
  cases precision with
  | full => exact .full (full_eq_nil_iff h) (shortest_full h)
  | places n =>
      have hn : n ≤ total := hplaces n rfl
      -- What is left when the rest is cut off has as many digits as there are places.
      have hcut : fraction / 10 ^ (total - n) < 10 ^ n := by
        rw [Nat.div_lt_iff_lt_mul (Nat.pow_pos (by decide)), ← Nat.pow_add]
        rwa [Nat.add_sub_cancel' hn]
      rw [select, Nat.min_eq_left hn] at hdigits ⊢
      refine .places (length_fixedDigits n _) hdigits ?_
      rw [fractionWorth, worth_fixedDigits, length_fixedDigits]
      exact congrArg (fun k : Nat => (k : Rat) / 10 ^ n) (Nat.mod_eq_of_lt hcut)

end

example : select 9 50000000 full = ['0', '5'] := by decide

example : select 9 58000000 (places 1) = ['0'] := by decide

end Precision

end Stencil
