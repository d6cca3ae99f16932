import Mathlib.Algebra.Group.Nat.Defs
import Stencil.Number.Numeral

/-!
# Numerals and the Numbers They Stand For

The row in which a numeral is laid has forty places, and a digit that finds none
is lost. Nothing is ever lost from a word of 64 or 128 bits: its digits are at
most thirty-nine, and that leaves a place for the sign. So the width of the word
does not show, and what is laid is the numeral that has no zero in front of other
digits.

Numerals are read by their digits. The reader knows nothing of how they were
laid, and takes zeros in front as well.

## Main definitions

* `Numeral.signed`, `Numeral.ofInt`: The numeral without a row to lay it in.
* `Numeral.Canonical`: Digits that spell a number without a zero in front.
* `Numeral.natural?`, `Numeral.integer?`: Reading a numeral.

## Theorems

* `Numeral.decimal_eq`: Nothing is lost in the row.
* `Numeral.canonical_toDigits`: The digits laid have no zero in front.
* `Numeral.integer?_ofInt`: A numeral is read as the number it was made for.
-/

namespace Stencil

namespace Numeral

/-- The numeral of a magnitude, with a minus sign if asked for. -/
def signed (negative : Bool) (n : Nat) : Text :=
  (if negative then ['-'] else []) ++ Nat.toDigits 10 n

/-- The numeral of an integer. -/
def ofInt (n : Int) : Text := signed (n < 0) n.natAbs

/-- Digits, one at least, that are worth a number. A zero stands in front only
    if it is all there is. -/
structure Canonical (t : Text) (n : Nat) : Prop where
  nonempty : t ≠ []
  digits : ∀ c ∈ t, c.isDigit = true
  leading : t.head? = some '0' → t = ['0']
  worth : Nat.ofDigitChars 10 t 0 = n

/-- Read digits, of which there must be one at least. -/
def natural? (t : Text) : Option Nat :=
  if t ≠ [] ∧ t.all Char.isDigit then some (Nat.ofDigitChars 10 t 0) else none

/-- Read digits with a minus sign in front or none. -/
def integer? : Text → Option Int
  | '-' :: t => (natural? t).map (fun n : Nat => -(n : Int))
  | t => (natural? t).map Int.ofNat

theorem digits_zero {w : Nat} (room : Nat) (laid : Text) :
    digits room (0 : BitVec w) laid = laid := by
  cases room with
  | zero => rfl
  | succ room => rw [digits, if_pos rfl]

/-- With room enough the digits laid are all there are, by induction on the
    room. -/
theorem digits_eq {w : Nat} (hten : 10 < 2 ^ w) {room : Nat} {value : BitVec w} (laid : Text)
    (hpos : value ≠ 0) (hroom : value.toNat < 10 ^ room) :
    digits room value laid = Nat.toDigits 10 value.toNat ++ laid := by
  induction room generalizing value laid with
  | zero =>
      -- Without room there would have to be nothing to lay.
      have hzero : value.toNat = 0 := Nat.lt_one_iff.mp hroom
      exact absurd (BitVec.eq_of_toNat_eq hzero) hpos
  | succ room ih =>
      -- Ten fits the word, so dividing words is dividing the numbers.
      have hbase : (10 : BitVec w).toNat = 10 := Nat.mod_eq_of_lt hten
      have hdiv : (value / 10).toNat = value.toNat / 10 := by rw [BitVec.toNat_udiv, hbase]
      have hmod : (value % 10).toNat = value.toNat % 10 := by rw [BitVec.toNat_umod, hbase]
      rw [digits, if_neg hpos, hmod]
      by_cases hlast : value.toNat < 10
      -- The last digit: nothing is left to be laid in front of it.
      · have hzero : value / 10 = 0 := by
          apply BitVec.eq_of_toNat_eq
          rw [hdiv, Nat.div_eq_of_lt hlast]
          rfl
        rw [hzero, digits_zero, Nat.toDigits_of_lt_base hlast, Nat.mod_eq_of_lt hlast]
        rfl
      -- One digit is laid, and the others have the room of one less.
      · have hmore : value / 10 ≠ 0 := by
          intro hzero
          rw [hzero] at hdiv
          have hsmall : 0 = value.toNat / 10 := hdiv
          omega
        rw [ih _ hmore (by rw [hdiv]; omega), hdiv,
          Nat.toDigits_of_base_le (by decide) (Nat.le_of_not_lt hlast), List.append_assoc]
        rfl

/-- Thirty-nine digits leave a place for the sign. -/
theorem length_toDigits {n : Nat} (h : n < 10 ^ 39) : (Nat.toDigits 10 n).length < slots :=
  Nat.lt_succ_of_le ((Nat.length_toDigits_le_iff (by decide) (by decide)).mpr h)

/-- With the sign the numeral of a number below 10^39 fills the row at most. -/
theorem length_signed {n : Nat} (h : n < 10 ^ 39) (negative : Bool) :
    (signed negative n).length ≤ slots := by
  have hdigits := length_toDigits h
  rw [signed, List.length_append]
  cases negative with
  | false => rw [if_neg Bool.false_ne_true, List.length_nil]; omega
  | true => rw [if_pos rfl, List.length_singleton]; omega

/-- A word below `10^39` leaves a place for the sign, so nothing is lost. -/
theorem decimal_eq {w : Nat} (hten : 10 < 2 ^ w) (hfit : 2 ^ w ≤ 10 ^ 39) (negative : Bool)
    (magnitude : BitVec w) : decimal negative magnitude = signed negative magnitude.toNat := by
  have hbound : magnitude.toNat < 10 ^ 39 := Nat.lt_of_lt_of_le magnitude.isLt hfit
  -- Zero is laid apart, as no digit of it would be laid otherwise.
  have hunsigned : (if magnitude = 0 then ['0'] else digits slots magnitude []) =
      Nat.toDigits 10 magnitude.toNat := by
    split
    · next hzero =>
        rw [hzero]
        exact (Nat.toDigits_zero 10).symm
    · next hpos => rw [digits_eq hten [] hpos (by rw [slots]; omega), List.append_nil]
  have hlength := length_toDigits hbound
  -- A minus sign is put in front only if there is a place left, and there is one.
  rw [decimal, hunsigned, signed]
  cases negative with
  | false => rfl
  | true => rw [if_pos ⟨rfl, hlength⟩]; rfl

/-- No zero stands in front, by induction on the number of digits. -/
theorem leading_toDigits (n : Nat) :
    (Nat.toDigits 10 n).head? = some '0' → Nat.toDigits 10 n = ['0'] := by
  induction n using Nat.strongRecOn with
  | ind n ih =>
      intro hhead
      by_cases hlast : n < 10
      -- A single digit may be a zero.
      · rw [Nat.toDigits_of_lt_base hlast] at hhead ⊢
        rw [List.head?_cons, Option.some.injEq] at hhead
        rw [hhead]
      · -- The digits in front are worth something.
        rw [Nat.toDigits_of_base_le (by decide) (Nat.le_of_not_lt hlast),
          List.head?_append, List.head?_eq_some_head Nat.toDigits_ne_nil, Option.some_or,
          ← List.head?_eq_some_head Nat.toDigits_ne_nil] at hhead
        have hfront := congrArg (Nat.ofDigitChars 10 · 0) (ih (n / 10) (by omega) hhead)
        simp only [Nat.ofDigitChars_ten_toDigits] at hfront
        have hzero : n / 10 = 0 := hfront
        omega

theorem isDigit_toDigits {n : Nat} {c : Char} (h : c ∈ Nat.toDigits 10 n) : c.isDigit = true :=
  Nat.isDigit_of_mem_toDigits (by decide) (by decide) h

theorem canonical_toDigits (n : Nat) : Canonical (Nat.toDigits 10 n) n :=
  ⟨Nat.toDigits_ne_nil, fun _ => isDigit_toDigits, leading_toDigits n,
    Nat.ofDigitChars_ten_toDigits⟩

theorem natural?_digits {t : Text} (hne : t ≠ []) (hdigits : ∀ c ∈ t, c.isDigit = true) :
    natural? t = some (Nat.ofDigitChars 10 t 0) :=
  if_pos ⟨hne, List.all_eq_true.mpr hdigits⟩

theorem natural?_toDigits (n : Nat) : natural? (Nat.toDigits 10 n) = some n := by
  rw [natural?_digits Nat.toDigits_ne_nil (fun _ => isDigit_toDigits),
    Nat.ofDigitChars_ten_toDigits]

/-- Digits do not begin with a sign. -/
theorem toDigits_cons (n : Nat) : ∃ c t, Nat.toDigits 10 n = c :: t ∧ c ≠ '-' := by
  rcases h : Nat.toDigits 10 n with _ | ⟨c, t⟩
  · exact absurd h Nat.toDigits_ne_nil
  · refine ⟨c, t, rfl, fun hsign => ?_⟩
    have hdigit : c.isDigit = true := isDigit_toDigits (by rw [h]; exact List.mem_cons_self)
    rw [hsign] at hdigit
    exact absurd hdigit (by decide)

/-- The numeral of an integer is read as that integer. -/
theorem integer?_ofInt (n : Int) : integer? (ofInt n) = some n := by
  rw [ofInt, signed]
  by_cases h : n < 0
  · have habs : -(n.natAbs : Int) = n := by omega
    rw [if_pos (decide_eq_true h), List.cons_append, List.nil_append, integer?, natural?_toDigits,
      Option.map_some, habs]
  · have habs : (n.natAbs : Int) = n := by omega
    -- The reader looks for a minus sign, and digits do not begin with one.
    rcases toDigits_cons n.natAbs with ⟨c, t, ht, hsign⟩
    have hread := natural?_toDigits n.natAbs
    rw [ht] at hread
    rw [if_neg (by rw [decide_eq_true_eq]; exact h), List.nil_append, ht, integer?, hread,
      Option.map_some, Int.ofNat_eq_natCast, habs]
    intro more hmore
    exact hsign (List.cons.inj hmore).1

end Numeral

end Stencil
