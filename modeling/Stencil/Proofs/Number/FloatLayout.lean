import Stencil.Proofs.Number.Closeness
import Stencil.Proofs.Number.Parts
import Stencil.Proofs.Rendering.Honest
import Stencil.Sink.Trace

/-!
# What the Text of a Float Says

A double is printed from its split, and the text says all that the split does:
the sign of the number, the digits in front of the point, those behind it and the
exponent can be read back. The spec bears on the digits behind the point alone.

That takes two bounds. The parts are computed in 64-bit words, so an integral
part or an exponent that is too large would be printed modulo `2^64`. A truncation
stops at a 32-bit word, and the table of powers of ten has nine entries that are
at most 256 each.

## Main definitions

* `FloatText.amount`: The number that a sign and a magnitude stand for.
* `FloatText.partsOf`: The parts that are printed.
* `FloatText.Says`: A text says a sign and a split.

## Theorems

* `FloatText.integral_lt`, `FloatText.natAbs_exponent_lt`: No part is cut off.
* `FloatText.content_render`: A finite double is printed in parts.
* `FloatText.says_render`: The text of a double says its sign and its split.
* `FloatText.partsOf_injective`: Parts tell signs and splits apart.
* `FloatText.render_encodes`: All that the text of a double says.
-/

namespace Stencil

namespace FloatText

open Numeral Precision Scientific

/-- The number that a sign and a magnitude stand for. -/
def amount (negative : Bool) (v : Rat) : Rat := if negative then -v else v

/-- The parts that are printed for a double: the sign is that of the number. -/
def partsOf (negative : Bool) (v : Rat) (precision : Precision) : Parts where
  negative := Binary64.isNegative (.finite negative v)
  integral := (Split.ofMagnitude v).integral
  digits := precision.select fractionDigits (Split.ofMagnitude v).fraction
  exponent := (Split.ofMagnitude v).exponent

theorem isDigit_partsOf (negative : Bool) (v : Rat) (precision : Precision) :
    ∀ c ∈ (partsOf negative v precision).digits, c.isDigit = true :=
  isDigit_select precision _ _

theorem magnitude_nonneg {bits : BitVec 64} {negative : Bool} {v : Rat}
    (h : Binary64.ofBits bits = .finite negative v) : 0 ≤ v := by
  rcases Binary64.exists_ofFields_of_ofBits h with ⟨n, -, rfl⟩
  exact Binary64.ofFields_nonneg n

/-- A double is negative if the number it stands for is, so a zero with a sign is not.
    -/
theorem isNegative_finite {v : Rat} (negative : Bool) (hv : 0 ≤ v) :
    Binary64.isNegative (.finite negative v) = decide (amount negative v < 0) := by
  rw [Binary64.isNegative, amount]
  cases negative with
  | false =>
      rw [Bool.false_and, if_neg Bool.false_ne_true, eq_comm, decide_eq_false_iff_not, not_lt]
      exact hv
  | true =>
      rw [Bool.true_and, if_pos rfl, decide_eq_decide, neg_neg_iff_pos]
      -- With the sign set, what is not zero is below it.
      exact ⟨fun h => lt_of_le_of_ne hv (Ne.symm h), fun h => ne_of_gt h⟩

/-- A truncation stops at a 32-bit word, and the carry adds one at most. -/
theorem integral_lt (x : Rat) : (Split.ofMagnitude x).integral < 2 ^ 64 := by
  have hword : Split.largestWord = 4294967295 := rfl
  have htruncate : ∀ y, Split.truncate y ≤ Split.largestWord := fun y => Nat.min_le_right _ _
  have hsignificand := htruncate (Scientific.normalize x).significand
  rw [Split.ofMagnitude]
  -- As it is, counted up, or carried to one: the word is exceeded by one at most.
  rcases Split.ofForm_cases (Scientific.normalize x) with h | h | h
  all_goals omega

theorem natAbs_reduce (form : Form) (k : Int) :
    (reduce form k).exponent.natAbs ≤ form.exponent.natAbs + k.natAbs := by
  rw [reduce]
  split
  · exact Int.natAbs_add_le _ _
  · exact Nat.le_add_right _ _

theorem natAbs_enlarge (form : Form) (k : Int) :
    (enlarge form k).exponent.natAbs ≤ form.exponent.natAbs + k.natAbs := by
  rw [enlarge]
  split
  · exact Int.natAbs_sub_le _ _
  · exact Nat.le_add_right _ _

/-- Every entry of a table moves the exponent by itself at most. -/
theorem natAbs_foldl {f : Form → Int → Form}
    (hf : ∀ form k, (f form k).exponent.natAbs ≤ form.exponent.natAbs + k.natAbs) {bound : Nat}
    {ks : List Int} (hks : ∀ k ∈ ks, k.natAbs ≤ bound) (form : Form) :
    (ks.foldl f form).exponent.natAbs ≤ form.exponent.natAbs + ks.length * bound := by
  induction ks generalizing form with
  | nil => rw [List.foldl_nil]; exact Nat.le_add_right _ _
  | cons k ks ih =>
      have hstep := hf form k
      have hentry := hks k List.mem_cons_self
      -- The entry and the others together have the bound of the longer table.
      have hrest := ih (fun k' hk' => hks k' (List.mem_cons_of_mem k hk')) (f form k)
      rw [List.foldl_cons, List.length_cons, Nat.succ_mul]
      omega

/-- Nine entries of 256 at most move an exponent that was zero. -/
theorem natAbs_normalize (x : Rat) : (Scientific.normalize x).exponent.natAbs ≤ 9 * 256 := by
  have hsteps : ∀ k ∈ steps, k.natAbs ≤ 256 := by decide
  rw [Scientific.normalize]
  split
  · exact natAbs_foldl natAbs_reduce hsteps ⟨x, 0⟩
  · split
    · exact natAbs_foldl natAbs_enlarge hsteps ⟨x, 0⟩
    · exact Nat.zero_le _

theorem natAbs_exponent_lt (x : Rat) : (Split.ofMagnitude x).exponent.natAbs < 2 ^ 64 := by
  have hbound := natAbs_normalize x
  rw [Split.ofMagnitude]
  rcases Split.ofForm_cases (Scientific.normalize x) with h | h | h
  all_goals omega

theorem content_numeral (negative : Bool) {m : Nat} (h : m < 2 ^ 64) :
    (numeral negative m).content = signed negative m := by
  have htext : (numeral negative m).content =
      Numeral.decimal negative (BitVec.ofNat 64 m) := List.append_nil _
  -- The magnitude is below the number of words, so no digit of it is lost.
  rw [htext, decimal_eq (by decide) (by decide), BitVec.toNat_ofNat, Nat.mod_eq_of_lt h]

theorem content_fractionPart (digits : Text) : (fractionPart digits).content = pointed digits := by
  rw [fractionPart, pointed]
  cases digits with
  | nil => rfl
  | cons c t => exact congrArg ('.' :: ·) (List.append_nil _)

/-- The exponent is printed as a number with a sign behind its mark, and not at all if
    it is zero. -/
theorem content_exponentPart {exponent : Int} (h : exponent.natAbs < 2 ^ 64) :
    (exponentPart exponent).content = powered exponent := by
  rw [exponentPart, powered]
  split
  · rfl
  · rw [(clean_mark rfl).content_andThen, content_numeral _ h]
    rfl

/-- A finite double is printed in parts, and none of them is cut off. -/
theorem content_render (negative : Bool) (v : Rat) (spec : Text) :
    (render (.finite negative v) spec).content = (partsOf negative v (ofSpec spec)).text := by
  -- None of the parts can fail, so their texts stand in a row.
  rw [render, renderSplit, (clean_numeral _ _).content_andThen,
    (clean_fractionPart _).content_andThen, content_numeral _ (integral_lt v),
    content_fractionPart, content_exponentPart (natAbs_exponent_lt v)]
  rfl

/-- A text says a sign and a split, as far as a spec asks for it: the parts stand
    one behind the other, and if all digits are asked for, the text is read as the
    number. The spec bears on the digits behind the point alone. -/
structure Says (below : Bool) (s : Split) (spec t : Text) : Prop where
  parts : ∃ precision digits, Asks spec precision ∧
    Shown fractionDigits s.fraction precision digits ∧
    t = signed below s.integral ++ (pointed digits ++ powered s.exponent)
  read : Asks spec full →
    (parts? t).map Parts.value = some ((if below then -1 else 1) * s.denoted)

section

variable {v : Rat} (negative : Bool) (hv : 0 ≤ v)
variable (hfraction : (Split.ofMagnitude v).fraction < fractionScale)

include hv hfraction

/-- The parts are worth what the split denotes, with the sign of the number. -/
theorem value_partsOf : (partsOf negative v full).value =
    (if amount negative v < 0 then -1 else 1) * (Split.ofMagnitude v).denoted := by
  rw [Parts.value, partsOf, fractionWorth_full hfraction, isNegative_finite negative hv,
    Split.denoted, Split.cast_fractionScale, mul_assoc]
  simp only [decide_eq_true_eq]
  rfl

/-- The text of a double says the sign and the split: the parts are those of the
    split, and they are read back from the text. -/
theorem says_render (spec : Text) :
    Says (amount negative v < 0) (Split.ofMagnitude v) spec
      (render (.finite negative v) spec).content := by
  have hasks := asks_ofSpec spec
  have hdigits := isDigit_partsOf negative v (ofSpec spec)
  rw [content_render]
  refine ⟨⟨ofSpec spec, _, hasks, shown_select hfraction fun n hn => ?_, ?_⟩, fun hfull => ?_⟩
  · -- No more than eight places can be asked for.
    rw [hn] at hasks
    exact Nat.le_of_lt hasks.places_lt
  · rw [Parts.text, partsOf, isNegative_finite negative hv]
  -- With all digits asked for, the parts that are read are worth the number.
  · rw [hfull.ofSpec_eq] at hdigits ⊢
    rw [parts?_text hdigits, Option.map_some, value_partsOf negative hv hfraction]
    simp only [decide_eq_true_eq]

end

/-- The parts are the sign and the split, if all digits are asked for. -/
theorem partsOf_injective {v w : Rat} {negative negative' : Bool} (hv : 0 ≤ v) (hw : 0 ≤ w)
    (hfraction : (Split.ofMagnitude v).fraction < fractionScale)
    (hfraction' : (Split.ofMagnitude w).fraction < fractionScale)
    (h : partsOf negative v full = partsOf negative' w full) :
    (amount negative v < 0 ↔ amount negative' w < 0) ∧
      Split.ofMagnitude v = Split.ofMagnitude w := by
  rw [partsOf, partsOf, Parts.mk.injEq, isNegative_finite negative hv,
    isNegative_finite negative' hw, decide_eq_decide] at h
  rcases h with ⟨hsign, hintegral, hdigits, hexponent⟩
  refine ⟨hsign, ?_⟩
  -- Equal digits are worth the same, and at full precision that is the fraction.
  have hworth := fractionWorth_full hfraction
  have hpow : (10 : Rat) ^ fractionDigits ≠ 0 := pow_ne_zero _ (by norm_num)
  rw [hdigits, fractionWorth_full hfraction', div_left_inj' hpow] at hworth
  have hsame : (Split.ofMagnitude v).fraction = (Split.ofMagnitude w).fraction := by
    exact_mod_cast hworth.symm
  rcases hs : Split.ofMagnitude v with ⟨i, f, e⟩
  rcases ht : Split.ofMagnitude w with ⟨i', f', e'⟩
  rw [hs, ht] at hintegral hexponent hsame
  rw [Split.mk.injEq]
  exact ⟨hintegral, hsame, hexponent⟩

/-- The other sign adds a minus sign and changes nothing else. -/
theorem content_negated {w : Rat} (hw : 0 < w) (spec : Text) :
    (render (.finite true w) spec).content = '-' :: (render (.finite false w) spec).content := by
  have hsign : Binary64.isNegative (.finite true w) = true := by
    rw [Binary64.isNegative, Bool.true_and, decide_eq_true_eq]
    exact ne_of_gt hw
  rw [content_render, content_render, Parts.text, Parts.text, partsOf, partsOf, hsign]
  rfl

/-- The text of a double whose fraction has nine digits says its sign and its
    split, and any two that differ there have different texts. It is as long as is
    reported, and it is what a sink receives. The other sign adds a minus sign, to an
    infinity as well. -/
theorem render_encodes (bits : BitVec 64) (negative : Bool) (v : Rat)
    (hbits : Binary64.ofBits bits = .finite negative v)
    (hfraction : (Split.ofMagnitude v).fraction < fractionScale) :
    (∀ spec, Says (amount negative v < 0) (Split.ofMagnitude v) spec
      (render (.finite negative v) spec).content) ∧
    (∀ (bits' : BitVec 64) (negative' : Bool) (w : Rat) (spec spec' : Text),
      Binary64.ofBits bits' = .finite negative' w →
      (Split.ofMagnitude w).fraction < fractionScale → Asks spec full → Asks spec' full →
      (render (.finite negative v) spec).content = (render (.finite negative' w) spec').content →
      (amount negative v < 0 ↔ amount negative' w < 0) ∧
        Split.ofMagnitude v = Split.ofMagnitude w) ∧
    (∀ (x : Binary64) (spec : Text),
      (render x spec).outcome = .ok (Text.count (render x spec).content)) ∧
    (∀ (w : Rat) (spec : Text), 0 < w →
      (render (.finite true w) spec).content = '-' :: (render (.finite false w) spec).content) ∧
    (∀ spec, (render (.infinite true) spec).content =
      '-' :: (render (.infinite false) spec).content) ∧
    (∀ (x : Binary64) (spec : Text),
      received (fun trace => (render x spec).into trace) = (render x spec).content) := by
  have hv := magnitude_nonneg hbits
  refine ⟨says_render negative hv hfraction, fun bits' negative' w spec spec' hbits' hfraction'
    hfull hfull' heq => ?_, fun x spec => (clean_render x spec).outcome_eq,
    fun w spec hw => content_negated hw spec, fun spec => rfl, fun x spec => received_into _⟩
  rw [content_render, content_render, hfull.ofSpec_eq, hfull'.ofSpec_eq] at heq
  -- Equal texts are read as the same parts.
  have hparts := congrArg parts? heq
  rw [parts?_text (isDigit_partsOf negative v full),
    parts?_text (isDigit_partsOf negative' w full), Option.some.injEq] at hparts
  exact partsOf_injective hv (magnitude_nonneg hbits') hfraction hfraction' hparts

/-- The text of -15000000000 is read as that number, and 15000000000 has another. -/
theorem render_encodes_large :
    (parts? (render (.finite true 15000000000) []).content).map Parts.value =
        some (-15000000000) ∧
      (render (.finite true 15000000000) []).content ≠
        (render (.finite false 15000000000) ['x']).content := by
  have hbits : Binary64.ofBits 0xC20BF08EB0000000 = .finite true 15000000000 := by decide +kernel
  have hbits' : Binary64.ofBits 0x420BF08EB0000000 = .finite false 15000000000 := by decide +kernel
  have hfraction : (Split.ofMagnitude 15000000000).fraction < fractionScale := by decide +kernel
  have hvalue : (if decide (amount true 15000000000 < 0) then -1 else 1) *
      (Split.ofMagnitude 15000000000).denoted = -15000000000 := by decide +kernel
  rcases render_encodes 0xC20BF08EB0000000 true 15000000000 hbits hfraction with
    ⟨hencoded, hdistinct, _⟩
  refine ⟨?_, fun heq => ?_⟩
  · rw [← hvalue]
    exact (hencoded []).read .nothing
  · have hsign := hdistinct _ false _ [] ['x'] hbits' hfraction .nothing (.other [] (by decide)) heq
    exact absurd (hsign.1.mp (by decide +kernel)) (by decide +kernel)

end FloatText

end Stencil
