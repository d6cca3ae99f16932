import Stencil.Proofs.Number.FractionDigits
import Stencil.Proofs.Number.Numerals

/-!
# Reading a Decimal Fraction

A number with a point and a power of ten is written in four parts: a sign, the
digits in front of the point, those behind it, and the exponent. The parts that
say nothing are left out. Where a part ends shows by the next character, which
is not a digit, so the parts can be read back one by one and the text tells more
than the number: one and the same number has a text for each exponent.

## Main definitions

* `Numeral.Parts`: The four parts, their text and the number they make up.
* `Numeral.parts?`: Reading the parts.

## Theorems

* `Numeral.parts?_text`: The parts are read back from their text.
-/

namespace Stencil

namespace Numeral

/-- The point and the digits behind it, if there are any. -/
def pointed (digits : Text) : Text := if digits = [] then [] else '.' :: digits

/-- The exponent, if it is not zero. -/
def powered (exponent : Int) : Text := if exponent = 0 then [] else 'e' :: ofInt exponent

/-- The parts of a decimal fraction. -/
structure Parts where
  negative : Bool
  integral : Nat
  /-- The digits behind the point. -/
  digits : Text
  exponent : Int
  deriving DecidableEq

namespace Parts

/-- The parts written one behind the other. -/
def text (p : Parts) : Text :=
  signed p.negative p.integral ++ (pointed p.digits ++ powered p.exponent)

/-- The number that the parts make up. -/
def value (p : Parts) : Rat :=
  (if p.negative then -1 else 1) * (p.integral + fractionWorth p.digits) * 10 ^ p.exponent

end Parts

/-- Read digits behind a point, if there is one. What follows them is left. -/
def behindPoint : Text → Text × Text
  | '.' :: t => (t.takeWhile Char.isDigit, t.dropWhile Char.isDigit)
  | t => ([], t)

/-- Read an exponent, if there is one, to the end. -/
def exponent? : Text → Option Int
  | [] => some 0
  | 'e' :: t => integer? t
  | _ => none

/-- Read what stands behind the sign. -/
def unsigned? (negative : Bool) (t : Text) : Option Parts :=
  let (digits, rest) := behindPoint (t.dropWhile Char.isDigit)
  (natural? (t.takeWhile Char.isDigit)).bind fun n =>
    (exponent? rest).map fun e => ⟨negative, n, digits, e⟩

/-- Read the parts of a decimal fraction. -/
def parts? : Text → Option Parts
  | '-' :: t => unsigned? true t
  | t => unsigned? false t

/-- No digit stands in front. -/
def NoDigit (t : Text) : Prop := ∀ c, t.head? = some c → c.isDigit = false

/-- Digits are taken up to where there are no more. -/
theorem takeWhile_digits {digits rest : Text} (hdigits : ∀ c ∈ digits, c.isDigit = true)
    (hrest : NoDigit rest) : (digits ++ rest).takeWhile Char.isDigit = digits := by
  rw [List.takeWhile_append_of_pos hdigits]
  cases rest with
  | nil => exact List.append_nil digits
  | cons c t => rw [List.takeWhile_cons_of_neg (by rw [hrest c rfl]; decide), List.append_nil]

theorem dropWhile_digits {digits rest : Text} (hdigits : ∀ c ∈ digits, c.isDigit = true)
    (hrest : NoDigit rest) : (digits ++ rest).dropWhile Char.isDigit = rest := by
  rw [List.dropWhile_append_of_pos hdigits]
  cases rest with
  | nil => rfl
  | cons c t => rw [List.dropWhile_cons_of_neg (by rw [hrest c rfl]; decide)]

theorem noDigit_cons {c : Char} (t : Text) (h : c.isDigit = false) : NoDigit (c :: t) := by
  intro d hd
  rw [List.head?_cons, Option.some.injEq] at hd
  rw [← hd, h]

theorem noDigit_powered (exponent : Int) : NoDigit (powered exponent) := by
  rw [powered]
  split
  · intro c hc
    exact absurd hc (by simp only [List.head?_nil, reduceCtorEq, not_false_eq_true])
  · exact noDigit_cons _ (by decide)

theorem noDigit_pointed (digits : Text) (exponent : Int) :
    NoDigit (pointed digits ++ powered exponent) := by
  rw [pointed]
  split
  · exact noDigit_powered exponent
  · exact noDigit_cons _ (by decide)

theorem exponent?_powered (exponent : Int) : exponent? (powered exponent) = some exponent := by
  rw [powered]
  split
  · next hzero => rw [hzero, exponent?]
  · rw [exponent?, integer?_ofInt]

/-- The digits behind the point are read, and the exponent is left. -/
theorem behindPoint_pointed {digits : Text} (hdigits : ∀ c ∈ digits, c.isDigit = true)
    (exponent : Int) :
    behindPoint (pointed digits ++ powered exponent) = (digits, powered exponent) := by
  rw [pointed]
  split
  · next hnone =>
      -- The exponent begins with a letter.
      rw [hnone, List.nil_append, powered]
      split <;> rfl
  -- Reading digits stops at the exponent or at the end.
  · rw [List.cons_append, behindPoint, takeWhile_digits hdigits (noDigit_powered exponent),
      dropWhile_digits hdigits (noDigit_powered exponent)]

/-- All that stands behind the sign is read back part by part. -/
theorem unsigned?_text {p : Parts} (hdigits : ∀ c ∈ p.digits, c.isDigit = true) :
    unsigned? p.negative (Nat.toDigits 10 p.integral ++ (pointed p.digits ++ powered p.exponent)) =
      some p := by
  have hintegral : ∀ c ∈ Nat.toDigits 10 p.integral, c.isDigit = true := fun _ => isDigit_toDigits
  have hrest := noDigit_pointed p.digits p.exponent
  -- The integral part ends at the point, or at the exponent, or at the end.
  rw [unsigned?, dropWhile_digits hintegral hrest, takeWhile_digits hintegral hrest,
    behindPoint_pointed hdigits, natural?_toDigits]
  simp only [exponent?_powered, Option.bind_some, Option.map_some]

/-- The parts are read back from their text. -/
theorem parts?_text {p : Parts} (hdigits : ∀ c ∈ p.digits, c.isDigit = true) :
    parts? p.text = some p := by
  have hread := unsigned?_text hdigits
  rw [Parts.text, signed]
  cases hsign : p.negative with
  | true =>
      rw [hsign] at hread
      rw [if_pos rfl, List.cons_append, List.cons_append, List.nil_append, parts?, hread]
  | false =>
      rw [hsign] at hread
      -- Without a sign the text begins with a digit, so none is read.
      rcases toDigits_cons p.integral with ⟨c, t, ht, hminus⟩
      rw [ht] at hread
      rw [if_neg Bool.false_ne_true, List.nil_append, ht, List.cons_append, parts?]
      · exact hread
      · exact fun more heq => hminus (List.cons.inj heq).1

end Numeral

end Stencil
