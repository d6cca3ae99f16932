import Stencil.Proofs.Number.Numerals
import Stencil.Proofs.Rendering.Honest
import Stencil.Sink.Trace
import Mathlib.Tactic.Ring

/-!
# What the Text of an Integer Says

An integer has two spellings, and each one tells its value. In decimal that is
the value itself: the sign is read off the pattern and the magnitude is computed
as a word, which is the distance from zero even for the least value of a signed
type. In hexadecimal it is the value modulo the number of patterns, in as many
digits as the type has half bytes.

The digits are read here by their characters alone, so a reader needs to know
neither the type nor the spec.

## Main definitions

* `Hexadecimal.digit?`, `Hexadecimal.natural?`: Reading hexadecimal digits of
  either case.
* `Hexadecimal.IsLower`: The digits with lowercase letters.

## Theorems

* `Integer.isNegative_eq`, `Integer.toNat_magnitude`: The sign and the distance
  from zero are those of the value.
* `Integer.toNat_pattern`: The pattern is the value modulo their number.
* `Integer.decimal_eq`: The decimal text is the numeral of the value.
* `Hexadecimal.read_places`: Digits taken place by place are worth the number.
* `Integer.render_spells`: Both spellings, for every integer and every spec.
-/

namespace Stencil

namespace Hexadecimal

/-- Read one digit. Letters count in either case. -/
def digit? (c : Char) : Option Nat :=
  if '0' ≤ c ∧ c ≤ '9' then some (c.toNat - '0'.toNat)
  else if 'a' ≤ c ∧ c ≤ 'f' then some (c.toNat - 'a'.toNat + 10)
  else if 'A' ≤ c ∧ c ≤ 'F' then some (c.toNat - 'A'.toNat + 10)
  else none

/-- Read digits behind others that are worth `n`. -/
def read (n : Nat) : Text → Option Nat
  | [] => some n
  | c :: t => (digit? c).bind (fun d => read (16 * n + d) t)

/-- Read digits. -/
def natural? (t : Text) : Option Nat := read 0 t

/-- A decimal digit or one of the first six letters in lowercase. -/
def IsLower (c : Char) : Prop := '0' ≤ c ∧ c ≤ '9' ∨ 'a' ≤ c ∧ c ≤ 'f'

theorem digit?_digit (letters : LetterCase) {n : Nat} (h : n < 16) :
    digit? (letters.digit n) = some n := by
  have hall : ∀ m : Fin 16, digit? (letters.digit m) = some m.val := by
    cases letters <;> decide
  exact hall ⟨n, h⟩

theorem isLower_digit {n : Nat} (h : n < 16) : IsLower (LetterCase.lower.digit n) := by
  have hall : ∀ m : Fin 16, '0' ≤ LetterCase.lower.digit m ∧ LetterCase.lower.digit m ≤ '9' ∨
      'a' ≤ LetterCase.lower.digit m ∧ LetterCase.lower.digit m ≤ 'f' := by
    decide
  exact hall ⟨n, h⟩

/-- Digits taken place by place are worth what they were taken from, by induction
    on the places. -/
theorem read_places (letters : LetterCase) (x places n : Nat) :
    read n ((List.range places).reverse.map fun i => letters.digit (x / 16 ^ i % 16)) =
      some (n * 16 ^ places + x % 16 ^ places) := by
  induction places generalizing n with
  | zero => rw [Nat.pow_zero, Nat.mod_one, Nat.mul_one]; rfl
  | succ places ih =>
      have hdigit : x / 16 ^ places % 16 < 16 := Nat.mod_lt _ (by decide)
      -- The highest place is read first, and what it is worth has the other places to its
      -- right.
      rw [List.range_succ, List.reverse_append, List.reverse_singleton, List.singleton_append,
        List.map_cons, read, digit?_digit letters hdigit, Option.bind_some, ih, Nat.mod_pow_succ]
      congr 1
      ring

end Hexadecimal

namespace Width

/-- Digits are computed in one of two words. -/
theorem working_cases (w : Width) : w.working = 64 ∨ w.working = 128 := by
  cases w with
  | bits128 => exact .inr rfl
  | _ => exact .inl rfl

theorem bits_le_working (w : Width) : w.bits ≤ w.working := by
  cases w with
  | address size => cases size <;> decide
  | _ => decide

/-- Two hexadecimal digits for each byte make as many numbers as there are patterns.
    -/
theorem two_pow_bits (w : Width) : 2 ^ w.bits = 16 ^ (2 * w.bytes) := by
  rw [bits, show 8 * w.bytes = 4 * (2 * w.bytes) by omega, Nat.pow_mul]

end Width

namespace Integer

/-- A pattern stands for the number that its bits make up, or for that many below
    the number of patterns. -/
theorem value_cases (n : Integer) :
    n.isNegative = false ∧ n.value = n.pattern.toNat ∨
      n.isNegative = true ∧ 0 < n.pattern.toNat ∧
        n.value = n.pattern.toNat - (2 ^ n.width.bits : Nat) := by
  rw [isNegative, value]
  cases n.signed with
  | false => exact .inl ⟨Bool.false_and _, if_neg Bool.false_ne_true⟩
  | true =>
      rw [Bool.true_and, if_pos rfl, BitVec.toInt_eq_msb_cond]
      cases hmsb : n.pattern.msb with
      | false => exact .inl ⟨rfl, if_neg Bool.false_ne_true⟩
      | true =>
          -- With the top bit set the pattern is not zero.
          have hhalf := BitVec.toNat_ge_of_msb_true hmsb
          have hpos := Nat.two_pow_pos (n.width.bits - 1)
          exact .inr ⟨rfl, Nat.lt_of_lt_of_le hpos hhalf, if_pos rfl⟩

/-- The sign is read off the pattern, and it is that of the value. -/
theorem isNegative_eq (n : Integer) : n.isNegative = decide (n.value < 0) := by
  have hbound := n.pattern.isLt
  rcases value_cases n with ⟨hsign, hvalue⟩ | ⟨hsign, _, hvalue⟩
  · rw [hsign, eq_comm, decide_eq_false_iff_not]
    omega
  · rw [hsign, eq_comm, decide_eq_true_iff]
    omega

/-- The pattern is the value modulo the number of patterns. -/
theorem toNat_pattern (n : Integer) :
    (n.pattern.toNat : Int) = n.value % (2 ^ n.width.bits : Nat) := by
  have hbound := n.pattern.isLt
  have hself : (n.pattern.toNat : Int) % (2 ^ n.width.bits : Nat) = n.pattern.toNat :=
    Int.emod_eq_of_lt (Int.natCast_nonneg _) (Int.ofNat_lt.mpr hbound)
  -- One turn of the patterns makes no difference.
  rcases value_cases n with ⟨_, hvalue⟩ | ⟨_, _, hvalue⟩
  · rw [hvalue, hself]
  · rw [hvalue, Int.sub_emod_right, hself]

/-- The distance from zero, the least value of a signed type included. -/
theorem toNat_magnitude (n : Integer) : n.magnitude.toNat = n.value.natAbs := by
  have hbound := n.pattern.isLt
  rw [magnitude]
  rcases value_cases n with ⟨hsign, hvalue⟩ | ⟨hsign, hpos, hvalue⟩
  · rw [hsign, if_neg Bool.false_ne_true]
    omega
  -- Negating the pattern takes it from the number of patterns, and it is not zero.
  · rw [hsign, if_pos rfl, BitVec.toNat_neg, Nat.mod_eq_of_lt (by omega)]
    omega

/-- The word in which digits are computed holds every magnitude of the type. -/
theorem toNat_working (n : Integer) :
    (n.magnitude.setWidth n.width.working).toNat = n.value.natAbs := by
  rw [BitVec.toNat_setWidth_of_le n.width.bits_le_working, toNat_magnitude]

/-- The decimal text is the numeral of the value, whichever word the digits are
    computed in. -/
theorem decimal_eq (n : Integer) : n.decimal = Numeral.ofInt n.value := by
  have hten : 10 < 2 ^ n.width.working := by
    rcases n.width.working_cases with h | h <;> rw [h] <;> decide
  -- The row was made for the larger word.
  have hfit : 2 ^ n.width.working ≤ 10 ^ 39 := by
    rcases n.width.working_cases with h | h <;> rw [h] <;> decide
  rw [decimal, Numeral.decimal_eq hten hfit, toNat_working, isNegative_eq, Numeral.ofInt]

/-- The numeral of every value fits into the row. -/
theorem length_ofInt (n : Integer) : (Numeral.ofInt n.value).length ≤ Numeral.slots := by
  refine Numeral.length_signed ?_ _
  -- No type is wider than the larger word.
  have hbits : n.width.bits ≤ 128 := by
    have hword := n.width.bits_le_working
    rcases n.width.working_cases with h | h <;> omega
  have hbound := n.magnitude.isLt
  rw [toNat_magnitude] at hbound
  calc n.value.natAbs < 2 ^ n.width.bits := hbound
    _ ≤ 2 ^ 128 := Nat.pow_le_pow_right (by decide) hbits
    _ ≤ 10 ^ 39 := by decide

/-- The digits are taken from the pattern four bits at a time, which is dividing by
    powers of sixteen. -/
theorem hexDigits_eq (n : Integer) (letters : LetterCase) :
    n.hexDigits letters = (List.range (2 * n.width.bytes)).reverse.map
      (fun i => letters.digit (n.pattern.toNat / 16 ^ i % 16)) := by
  rw [hexDigits]
  refine List.map_congr_left (fun i _ => ?_)
  rw [nibbleDigit, BitVec.extractLsb'_toNat, Nat.shiftRight_eq_div_pow, Nat.pow_mul]

theorem natural?_hexDigits (n : Integer) (letters : LetterCase) :
    Hexadecimal.natural? (n.hexDigits letters) = some n.pattern.toNat := by
  have hbound : n.pattern.toNat < 16 ^ (2 * n.width.bytes) := by
    rw [← Width.two_pow_bits]
    exact n.pattern.isLt
  rw [Hexadecimal.natural?, hexDigits_eq, Hexadecimal.read_places, Nat.zero_mul, Nat.zero_add,
    Nat.mod_eq_of_lt hbound]

theorem length_hexDigits (n : Integer) (letters : LetterCase) :
    (n.hexDigits letters).length = 2 * n.width.bytes := by
  rw [hexDigits, List.length_map, List.length_reverse, List.length_range]

theorem isLower_hexDigits (n : Integer) : ∀ c ∈ n.hexDigits .lower, Hexadecimal.IsLower c := by
  intro c hc
  rw [hexDigits_eq] at hc
  rcases List.mem_map.mp hc with ⟨i, _, rfl⟩
  exact Hexadecimal.isLower_digit (Nat.mod_lt _ (by decide))

/-- The other letters are those of the digits in capitals. -/
theorem hexDigits_upper (n : Integer) :
    n.hexDigits .upper = (n.hexDigits .lower).map Char.toUpper := by
  rw [hexDigits, hexDigits, List.map_map]
  rfl

theorem content_decimal (n : Integer) : (n.render []).content = Numeral.ofInt n.value := by
  rw [← decimal_eq]
  exact List.append_nil _

theorem content_hexadecimal (n : Integer) {spec : Text} {letters : LetterCase}
    (h : Radix.ofSpec spec = .hexadecimal letters) :
    (n.render spec).content = '0' :: 'x' :: n.hexDigits letters := by
  rw [render, h]
  exact congrArg (['0', 'x'] ++ ·) (Rendering.flatMap_chars _)

theorem ofSpec_nonempty {spec : Text} (h : spec ≠ []) :
    Radix.ofSpec spec = .hexadecimal (if spec.head? = some 'x' then .lower else .upper) := by
  rcases List.exists_cons_of_ne_nil h with ⟨c, rest, rfl⟩
  rw [List.head?_cons]
  by_cases hc : c = 'x'
  · rw [hc, if_pos rfl, Radix.ofSpec]
  -- Any other first character asks for capital letters.
  · rw [if_neg (fun heq => hc (Option.some.inj heq)), Radix.ofSpec]
    · exact List.cons_ne_nil c rest
    · exact fun more hmore => hc (List.cons.inj hmore).1

/-- An integer is spelled in decimal by the canonical numeral of its value, which
    fits into the row and is read as the value, and in hexadecimal by `0x` and two
    digits for each byte of its type, which are worth the value modulo the number
    of patterns. Both widths of word lay the same numeral, and what is spelled is what
    a sink receives. -/
theorem render_spells (n : Integer) :
    (∀ spec, (n.render spec).outcome = .ok (Text.count (n.render spec).content)) ∧
    (∃ digits, Numeral.Canonical digits n.value.natAbs ∧
      (n.render []).content = (if n.value < 0 then ['-'] else []) ++ digits) ∧
    Numeral.integer? (n.render []).content = some n.value ∧
    (n.render []).content.length ≤ Numeral.slots ∧
    (∃ (digits : Text) (worth : Nat), (worth : Int) = n.value % (2 ^ n.width.bits : Nat) ∧
      digits.length = 2 * n.width.bytes ∧ (∀ c ∈ digits, Hexadecimal.IsLower c) ∧
      Hexadecimal.natural? digits = some worth ∧
      Hexadecimal.natural? (digits.map Char.toUpper) = some worth ∧
      ∀ spec, spec ≠ [] → (n.render spec).content = '0' :: 'x' ::
        if spec.head? = some 'x' then digits else digits.map Char.toUpper) ∧
    (∀ negative m, m < 2 ^ 64 → Numeral.decimal negative (BitVec.ofNat 64 m) =
      Numeral.decimal negative (BitVec.ofNat 128 m)) ∧
    (∀ spec, received (fun trace => (n.render spec).into trace) = (n.render spec).content) := by
  refine ⟨fun spec => (clean_render n spec).outcome_eq,
    ⟨_, Numeral.canonical_toDigits n.value.natAbs, ?_⟩, ?_, ?_,
    ⟨n.hexDigits .lower, n.pattern.toNat, n.toNat_pattern, n.length_hexDigits .lower,
      n.isLower_hexDigits, n.natural?_hexDigits .lower, ?_, fun spec hspec => ?_⟩,
    fun negative m hm => ?_, fun spec => received_into _⟩
  · rw [content_decimal, Numeral.ofInt, Numeral.signed]
    simp only [decide_eq_true_eq]
  · rw [content_decimal, Numeral.integer?_ofInt]
  · rw [content_decimal]
    exact n.length_ofInt
  -- Capital letters are read as the same digits.
  · rw [← hexDigits_upper, natural?_hexDigits]
  · rw [content_hexadecimal n (ofSpec_nonempty hspec), ← hexDigits_upper]
    split <;> rfl
  -- What fits the smaller word is the same number in the larger.
  · rw [Numeral.decimal_eq (w := 64) (by decide) (by decide),
      Numeral.decimal_eq (w := 128) (by decide) (by decide), BitVec.toNat_ofNat,
      BitVec.toNat_ofNat, Nat.mod_eq_of_lt hm, Nat.mod_eq_of_lt (by omega)]

end Integer

end Stencil
