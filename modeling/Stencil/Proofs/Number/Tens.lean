import Stencil.Proofs.Number.Enlargement

/-!
# Small Numbers That Reach Ten

Which small doubles are left with a significand of ten is a question about the
doubles next to powers of ten. Those with one exponent lie between two such
powers, and among them the largest have the largest significands. So the place
to look is just below where the next exponent begins, which is within a few
doubles of the one nearest to the power of ten.

Only exponents whose lowest binary place belongs to one of four entries of the
table come into question. For each of them six doubles are looked at: the one
behind the nearest double to the power of ten has a larger exponent already,
the one four before it is below ten still, and of those in between the list
says which reach ten.

## Main definitions

* `Scientific.nearPower`: The double nearest to a power of ten.
* `Scientific.tens`: The doubles that reach ten.

## Theorems

* `Scientific.boundaries`: What is found around the powers of ten.
* `Scientific.reaches_ten_iff`: Which small doubles reach ten.
-/

namespace Stencil

namespace Scientific

open Binary64

/-- The fields of the double nearest to `10^(-n)`. -/
def nearPower (n : Nat) : Nat := magnitudeBits (powerOfTen (-(n : Int)))

/-- The doubles that reach ten. An entry `(n, d)` is the double that lies `d`
    doubles below the one nearest to `10^(-n)`. -/
def tens : List (Nat × Nat) :=
  [(5, 1), (9, 1), (13, 1), (17, 1), (21, 0), (25, 1), (25, 2), (29, 0), (31, 1), (33, 1),
    (37, 1), (41, 1), (41, 2), (45, 1), (49, 0), (53, 1), (53, 2), (57, 1), (61, 1), (63, 1),
    (65, 0), (69, 0), (69, 1), (73, 1), (77, 0), (81, 0), (81, 1), (85, 0), (85, 1), (89, 1),
    (93, 0), (95, 1), (97, 1), (101, 1), (101, 2), (105, 1), (109, 1), (109, 2), (113, 0),
    (113, 1), (117, 1), (121, 1), (125, 1), (133, 1), (137, 1), (137, 2), (145, 0), (149, 1),
    (153, 2), (159, 1), (159, 2), (161, 1), (165, 2), (169, 2), (173, 2), (177, 0), (181, 2),
    (189, 1), (191, 1), (193, 1), (193, 2), (197, 1), (201, 1), (205, 1), (209, 1), (209, 2),
    (213, 0), (213, 1), (221, 1), (221, 2), (223, 1), (225, 1), (229, 1), (229, 2), (233, 2),
    (233, 3), (237, 1), (237, 2), (241, 0), (241, 1), (245, 1), (249, 3), (253, 2), (255, 1),
    (261, 1), (265, 1), (273, 1), (277, 0), (277, 1), (281, 1), (285, 1), (287, 1), (287, 2),
    (289, 1), (289, 2), (293, 1), (293, 2), (297, 1), (297, 2), (301, 1), (305, 0), (305, 1)]

/-- Whether the list has an entry. -/
def listed (n d : Nat) : Bool := tens.any (fun p => Nat.beq p.1 n && Nat.beq p.2 d)

/-- Looking a double up is finding it in the list. -/
theorem listed_iff {n d : Nat} : listed n d = true ↔ (n, d) ∈ tens := by
  rw [listed, List.any_eq_true]
  constructor
  · rintro ⟨⟨m, c⟩, hmem, hboth⟩
    rw [Bool.and_eq_true, Nat.beq_eq, Nat.beq_eq] at hboth
    rw [← hboth.1, ← hboth.2]
    exact hmem
  · intro hmem
    exact ⟨(n, d), hmem, by rw [Bool.and_eq_true, Nat.beq_eq, Nat.beq_eq]; exact ⟨rfl, rfl⟩⟩

/-- The lowest binary place of the number belongs to an entry that can lead to
    ten. -/
def Reachable (j : Nat) : Prop := j % 512 = 256 ∨ j % 128 = 64 ∨ j % 64 = 32 ∨ j % 4 = 2

instance : DecidablePred Reachable := fun j =>
  inferInstanceAs (Decidable (j % 512 = 256 ∨ j % 128 = 64 ∨ j % 64 = 32 ∨ j % 4 = 2))

/-- The powers of ten below which ten can be reached. -/
def candidates : List Nat := (List.range 324).filter (fun n => 5 ≤ n ∧ Reachable (n + 1))

/-- What is found around the powers of ten. -/
theorem boundaries : ∀ n ∈ candidates,
    (enlargeFields factors (nearPower n + 1) 0).2 ≤ n ∧
      (enlargeFields factors (nearPower n - 4) 0).2 = n + 1 ∧
      (enlargeFields factors (nearPower n - 4) 0).1 < ten ∧
      ∀ d ∈ [0, 1, 2, 3],
        enlargeFields factors (nearPower n - d) 0 = (ten, n + 1) ↔ listed n d = true := by
  decide +kernel

theorem tens_candidates : ∀ p ∈ tens, p.1 ∈ candidates ∧ p.2 ∈ [0, 1, 2, 3] := by
  decide +kernel

theorem enlargeFields_smallest : (enlargeFields factors 1 0).2 = 324 := by
  decide +kernel

theorem enlargeFields_lowest : enlargeFields factors lowest 0 = (one, 5) := by
  decide +kernel

/-- Of two small doubles the larger has the larger form. -/
theorem small_lex {n m : Nat} (hn : 0 < n) (h : n ≤ m) :
    (enlargeFields factors m 0).2 < (enlargeFields factors n 0).2 ∨
      ((enlargeFields factors m 0).2 = (enlargeFields factors n 0).2 ∧
        (enlargeFields factors n 0).1 ≤ (enlargeFields factors m 0).1) :=
  enlargeFields_lex factors_exact dominant_factors hn h 0

/-- The exponents are those of the smallest double and of the threshold, and
    what lies between. -/
theorem small_exponent {n : Nat} (hn : 0 < n) (hsmall : n ≤ lowest) :
    5 ≤ (enlargeFields factors n 0).2 ∧ (enlargeFields factors n 0).2 ≤ 324 := by
  -- Larger doubles have no larger exponents, so the two ends bound the others.
  have hlow := small_lex (by decide : 0 < 1) hn
  have hhigh := small_lex hn hsmall
  rw [enlargeFields_smallest] at hlow
  rw [enlargeFields_lowest] at hhigh
  simp only at hhigh
  omega

/-- With the exponent of the threshold the significand is at most one. -/
theorem le_one_of_exponent {n : Nat} (hn : 0 < n) (hsmall : n ≤ lowest)
    (hexponent : (enlargeFields factors n 0).2 = 5) : (enlargeFields factors n 0).1 ≤ one := by
  have hhigh := small_lex hn hsmall
  rw [enlargeFields_lowest, hexponent] at hhigh
  simp only at hhigh
  omega

/-- Which small doubles reach ten. -/
theorem reaches_ten_iff {n : Nat} (hn : 0 < n) (hsmall : n ≤ lowest) :
    (enlargeFields factors n 0).1 = ten ↔ ∃ p ∈ tens, nearPower p.1 = n + p.2 := by
  constructor
  · intro hten
    -- The exponent that ten is reached with has to be one that an entry can lead to.
    have hreachable := exponent_of_ten hn (Nat.lt_of_le_of_lt hsmall (by decide)) hten
    rcases small_exponent hn hsmall with ⟨hlow, hhigh⟩
    -- The threshold has the smallest exponent, and nothing up to it reaches ten with that.
    have hne : (enlargeFields factors n 0).2 ≠ 5 := by
      intro hfive
      have hle := le_one_of_exponent hn hsmall hfive
      rw [hten] at hle
      exact absurd hle (by decide)
    have hpred : (enlargeFields factors n 0).2 - 1 + 1 = (enlargeFields factors n 0).2 := by omega
    have hmem : (enlargeFields factors n 0).2 - 1 ∈ candidates := by
      rw [candidates, List.mem_filter, List.mem_range, decide_eq_true_eq, hpred]
      exact ⟨by omega, by omega, hreachable⟩
    rcases boundaries _ hmem with ⟨hnext, hbelow, hless, hbetween⟩
    rw [hpred] at hbelow hbetween
    -- Above the boundary the exponent has changed, and far below it is less than ten.
    have hupper : n ≤ nearPower ((enlargeFields factors n 0).2 - 1) := by
      by_contra hgt
      have hbehind : nearPower ((enlargeFields factors n 0).2 - 1) + 1 ≤ n := by omega
      have hlex := small_lex (by omega) hbehind
      omega
    have hlower : nearPower ((enlargeFields factors n 0).2 - 1) - 4 < n := by
      by_contra hle
      have hlex := small_lex hn (Nat.le_of_not_lt hle)
      omega
    generalize hpower : nearPower ((enlargeFields factors n 0).2 - 1) = power
      at hupper hlower hbetween
    refine ⟨((enlargeFields factors n 0).2 - 1, power - n), ?_, ?_⟩
    -- What is left are four doubles at the boundary, which were all looked at.
    · have hd : power - n ∈ [0, 1, 2, 3] := by
        simp only [List.mem_cons, List.not_mem_nil, or_false]
        omega
      have hplace : power - (power - n) = n := by omega
      have hentry := hbetween (power - n) hd
      rw [hplace, listed_iff] at hentry
      exact hentry.mp (Prod.ext hten rfl)
    · simp only [hpower]
      omega
  · rintro ⟨⟨k, d⟩, hmem, hplace⟩
    -- Every double listed is among those that were looked at, and ten was reached.
    rcases tens_candidates _ hmem with ⟨hcandidate, hd⟩
    have hentry := ((boundaries k hcandidate).2.2.2 d hd).mpr (listed_iff.mpr hmem)
    simp only at hplace
    rw [hplace, Nat.add_sub_cancel] at hentry
    rw [hentry]

end Scientific

end Stencil
