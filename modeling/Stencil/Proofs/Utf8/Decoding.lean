import Stencil.Utf8
import Mathlib.Data.List.Infix
import Mathlib.Tactic.ByContra

/-!
# Decoding What Was Encoded

Reading UTF-8 undoes writing it. The encoding of a character is read as that
character, and while some of its bytes are still to come nothing is read at
all. So bytes that begin like a text are read as a beginning of that text, and
a buffer that was cut in the middle of a character shows the text up to there.

An encoding is a lead byte and at most three bytes that continue it. The lead
byte fixes how many there are and what the first of them may be; both are
settled here for all lead bytes at once. What is left is arithmetic: the parts
that a code point is divided into make it up again.

## Main definitions

* `Utf8.Encodes`: The parts of a code point, and the bytes that hold them.
* `Utf8.inside`, `Utf8.leadThree`, `Utf8.leadFour`: The states in a character.

## Theorems

* `Utf8.scan_utf8EncodeChar`: The encoding of a character is read as it.
* `Utf8.scan_take_utf8EncodeChar`: A beginning of an encoding is read as nothing.
* `Utf8.utf8Size_le_of_prefix`: No encoding begins with a shorter one.
* `Utf8.validPrefix_isPrefix`: Bytes that begin a text are read as the
  beginning of it.
-/

namespace Stencil

namespace Utf8

/-- The state in a character where any byte that continues one may come next. -/
def inside (owed value : Nat) : Partial := ⟨owed, 0x80, 0xBF, value⟩

/-- The state behind the lead byte of a character of three bytes. Small values
    would be overlong, and those behind 13 would be surrogates. -/
def leadThree (value : Nat) : Partial :=
  ⟨2, if value = 0 then 0xA0 else 0x80, if value = 13 then 0x9F else 0xBF, value⟩

/-- The state behind the lead byte of a character of four bytes. Small values
    would be overlong, and large ones too large for a character. -/
def leadFour (value : Nat) : Partial :=
  ⟨3, if value = 0 then 0x90 else 0x80, if value = 4 then 0x8F else 0xBF, value⟩

theorem step_lead_one {k : Nat} (h : k < 128) :
    step none (UInt8.ofNat k) = ([some (Char.ofNat k)], none) := by
  -- A lead byte is one of finitely many, here and for the longer characters.
  have hall : ∀ i : Fin 128, step none (UInt8.ofNat i) = ([some (Char.ofNat i)], none) := by
    decide +kernel
  exact hall ⟨k, h⟩

theorem step_lead_two {k : Nat} (hlow : 2 ≤ k) (hhigh : k < 32) :
    step none (UInt8.ofNat (k + 192)) = ([], some (inside 1 k)) := by
  have hall : ∀ i : Fin 32, 2 ≤ i.val →
      step none (UInt8.ofNat (i.val + 192)) = ([], some (inside 1 i.val)) := by
    decide +kernel
  exact hall ⟨k, hhigh⟩ hlow

theorem step_lead_three {k : Nat} (h : k < 16) :
    step none (UInt8.ofNat (k + 224)) = ([], some (leadThree k)) := by
  have hall : ∀ i : Fin 16,
      step none (UInt8.ofNat (i.val + 224)) = ([], some (leadThree i.val)) := by
    decide +kernel
  exact hall ⟨k, h⟩

theorem step_lead_four {k : Nat} (h : k < 5) :
    step none (UInt8.ofNat (k + 240)) = ([], some (leadFour k)) := by
  have hall : ∀ i : Fin 5, step none (UInt8.ofNat (i.val + 240)) = ([], some (leadFour i.val)) := by
    decide +kernel
  exact hall ⟨k, h⟩

/-- A byte that continues a character adds six bits to it. -/
theorem step_continuation {p : Partial} {k : Nat} (hk : k < 64) (hlow : p.low.toNat ≤ k + 128)
    (hhigh : k + 128 ≤ p.high.toNat) :
    step (some p) (UInt8.ofNat (k + 128)) =
      if p.owed ≤ 1 then ([some (Char.ofNat (p.value * 64 + k))], none)
      else ([], some ⟨p.owed - 1, 0x80, 0xBF, p.value * 64 + k⟩) := by
  have hbyte : (UInt8.ofNat (k + 128)).toNat = k + 128 :=
    UInt8.toNat_ofNat_of_lt' (by omega : k + 128 < 256)
  -- The mask takes off the mark of a continuation and leaves the six bits.
  have hbits : (UInt8.ofNat (k + 128) &&& 0x3F).toNat = k := by
    rw [UInt8.toNat_and, hbyte, show (0x3F : UInt8).toNat = 2 ^ 6 - 1 from rfl,
      Nat.and_two_pow_sub_one_eq_mod]
    omega
  have hwithin : p.low ≤ UInt8.ofNat (k + 128) ∧ UInt8.ofNat (k + 128) ≤ p.high := by
    rw [UInt8.le_iff_toNat_le, UInt8.le_iff_toNat_le, hbyte]
    exact ⟨hlow, hhigh⟩
  simp only [step, hwithin, and_self, if_true, hbits]

/-- A byte before the last completes nothing. -/
theorem step_inner {p : Partial} {owed k : Nat} (hk : k < 64) (howed : p.owed = owed + 2)
    (hlow : p.low.toNat ≤ k + 128) (hhigh : k + 128 ≤ p.high.toNat) :
    step (some p) (UInt8.ofNat (k + 128)) =
      ([], some (inside (owed + 1) (p.value * 64 + k))) := by
  rw [step_continuation hk hlow hhigh, if_neg (by omega), howed]
  rfl

theorem inside_bounds (owed value : Nat) {k : Nat} (hk : k < 64) :
    (inside owed value).low.toNat ≤ k + 128 ∧ k + 128 ≤ (inside owed value).high.toNat := by
  simp only [inside, UInt8.reduceToNat]
  omega

/-- The last byte of a character completes it. -/
theorem step_last (value : Nat) {k : Nat} (hk : k < 64) :
    step (some (inside 1 value)) (UInt8.ofNat (k + 128)) =
      ([some (Char.ofNat (value * 64 + k))], none) := by
  rcases inside_bounds 1 value hk with ⟨hlow, hhigh⟩
  rw [step_continuation hk hlow hhigh]
  rfl

theorem scan_nil (state : Option Partial) : scan state [] = ([], state) := rfl

theorem scan_cons {state next : Option Partial} {b : UInt8} {out : List Segment}
    (h : step state b = (out, next)) (rest : List UInt8) :
    scan state (b :: rest) = (out ++ (scan next rest).1, (scan next rest).2) := by
  rw [scan, h]

/-- What one byte reads is all there is to a single byte. -/
theorem scan_singleton {state next : Option Partial} {b : UInt8} {out : List Segment}
    (h : step state b = (out, next)) : scan state [b] = (out, next) := by
  rw [scan_cons h, scan_nil, List.append_nil]

/-- The bytes that hold the parts of a code point: six bits in each that
    continues, and the rest in the lead. What the standard excludes is the
    code points that a shorter form holds, the surrogates, and those that are
    too large. -/
inductive Encodes : Nat → List UInt8 → Prop
  | one {a : Nat} : a < 128 → Encodes a [UInt8.ofNat a]
  | two {a b : Nat} : 2 ≤ a → a < 32 → b < 64 →
    Encodes (a * 64 + b) [UInt8.ofNat (a + 192), UInt8.ofNat (b + 128)]
  | three {a b c : Nat} : a < 16 → b < 64 → c < 64 → (a = 0 → 32 ≤ b) → (a = 13 → b < 32) →
    Encodes ((a * 64 + b) * 64 + c)
      [UInt8.ofNat (a + 224), UInt8.ofNat (b + 128), UInt8.ofNat (c + 128)]
  | four {a b c d : Nat} : a < 5 → b < 64 → c < 64 → d < 64 → (a = 0 → 16 ≤ b) →
    (a = 4 → b < 16) →
    Encodes (((a * 64 + b) * 64 + c) * 64 + d)
      [UInt8.ofNat (a + 240), UInt8.ofNat (b + 128), UInt8.ofNat (c + 128), UInt8.ofNat (d + 128)]

/-- A character is not a surrogate and not beyond the last code point. -/
theorem toNat_bounds (c : Char) : c.toNat < 0xD800 ∨ 0xDFFF < c.toNat ∧ c.toNat < 0x110000 :=
  c.valid

/-- The bytes of a character hold the parts of its code point. Its size settles how
    many there are. -/
theorem encodes_char (c : Char) : Encodes c.toNat (String.utf8EncodeChar c) := by
  have hbounds := toNat_bounds c
  rw [String.utf8EncodeChar, show c.val.toNat = c.toNat from rfl]
  -- The four lengths, and in each the parts that the code point is divided into.
  generalize c.toNat = n at hbounds
  by_cases h1 : n ≤ 0x7f
  · rw [if_pos h1]
    exact .one (by omega)
  rw [if_neg h1]
  by_cases h2 : n ≤ 0x7ff
  · rw [if_pos h2, show n / 64 % 0x20 = n / 64 by omega]
    have hsum : n / 64 * 64 + n % 64 = n := by omega
    have h := Encodes.two (a := n / 64) (b := n % 64) (by omega) (by omega) (by omega)
    rw [hsum] at h
    exact h
  rw [if_neg h2]
  by_cases h3 : n ≤ 0xffff
  · rw [if_pos h3, show n / 4096 % 0x10 = n / 4096 by omega]
    have hsum : (n / 4096 * 64 + n / 64 % 64) * 64 + n % 64 = n := by omega
    have h := Encodes.three (a := n / 4096) (b := n / 64 % 64) (c := n % 64) (by omega) (by omega)
      (by omega) (by omega) (by omega)
    rw [hsum] at h
    exact h
  · rw [if_neg h3, show n / 262144 % 0x08 = n / 262144 by omega]
    have hsum : ((n / 262144 * 64 + n / 4096 % 64) * 64 + n / 64 % 64) * 64 + n % 64 = n := by omega
    -- Up to the last code point a lead of 4 leaves less than 16 for the second part.
    have h := Encodes.four (a := n / 262144) (b := n / 4096 % 64) (c := n / 64 % 64) (d := n % 64)
      (by omega) (by omega) (by omega) (by omega) (by omega) (by omega)
    rw [hsum] at h
    exact h

/-- The byte behind a lead of three keeps to the bounds of that lead. -/
theorem leadThree_bounds {a b : Nat} (hb : b < 64) (hlow : a = 0 → 32 ≤ b)
    (hhigh : a = 13 → b < 32) :
    (leadThree a).low.toNat ≤ b + 128 ∧ b + 128 ≤ (leadThree a).high.toNat := by
  refine ⟨?_, ?_⟩
  · by_cases h : a = 0
    · have hbound := hlow h
      simp only [leadThree, if_pos h, UInt8.reduceToNat]
      omega
    · simp only [leadThree, if_neg h, UInt8.reduceToNat]
      omega
  · by_cases h : a = 13
    · have hbound := hhigh h
      simp only [leadThree, if_pos h, UInt8.reduceToNat]
      omega
    · simp only [leadThree, if_neg h, UInt8.reduceToNat]
      omega

/-- The byte behind a lead of four keeps to the bounds of that lead. -/
theorem leadFour_bounds {a b : Nat} (hb : b < 64) (hlow : a = 0 → 16 ≤ b)
    (hhigh : a = 4 → b < 16) :
    (leadFour a).low.toNat ≤ b + 128 ∧ b + 128 ≤ (leadFour a).high.toNat := by
  refine ⟨?_, ?_⟩
  · by_cases h : a = 0
    · have hbound := hlow h
      simp only [leadFour, if_pos h, UInt8.reduceToNat]
      omega
    · simp only [leadFour, if_neg h, UInt8.reduceToNat]
      omega
  · by_cases h : a = 4
    · have hbound := hhigh h
      simp only [leadFour, if_pos h, UInt8.reduceToNat]
      omega
    · simp only [leadFour, if_neg h, UInt8.reduceToNat]
      omega

/-- Bytes are read up to their last as nothing, and with it as one character. -/
structure ReadsAs (n : Nat) (bytes : List UInt8) : Prop where
  whole : scan none bytes = ([some (Char.ofNat n)], none)
  part : ∀ k, 0 < k → k < bytes.length → ∃ p, scan none (bytes.take k) = ([], some p)

/-- Reading the bytes that hold a code point gives it back. -/
theorem Encodes.readsAs {n : Nat} {bytes : List UInt8} (h : Encodes n bytes) : ReadsAs n bytes := by
  cases h with
  | one ha =>
      -- A single byte has no part that is shorter and not empty.
      refine ⟨scan_singleton (step_lead_one ha), ?_⟩
      intro k hpos hk
      exact absurd hk (by simp only [List.length_singleton]; omega)
  | @two a b hlow hhigh hb =>
      -- The only part is the lead.
      have hlead := step_lead_two hlow hhigh
      have hlast := step_last a hb
      refine ⟨?_, ?_⟩
      · rw [scan_cons hlead, scan_singleton hlast]
        rfl
      · intro k hpos hk
        simp only [List.length_cons, List.length_nil] at hk
        obtain rfl : k = 1 := by omega
        exact ⟨_, scan_singleton hlead⟩
  | @three a b c ha hb hc hlow hhigh =>
      have hlead := step_lead_three ha
      rcases leadThree_bounds hb hlow hhigh with ⟨hleast, hmost⟩
      -- The second byte has the bounds of the lead, and the last byte those of any.
      have hinner : step (some (leadThree a)) (UInt8.ofNat (b + 128)) =
          ([], some (inside 1 (a * 64 + b))) := step_inner hb rfl hleast hmost
      have hlast := step_last (a * 64 + b) hc
      refine ⟨?_, ?_⟩
      · rw [scan_cons hlead, scan_cons hinner, scan_singleton hlast]
        rfl
      · intro k hpos hk
        simp only [List.length_cons, List.length_nil] at hk
        have hcases : k = 1 ∨ k = 2 := by omega
        rcases hcases with rfl | rfl
        · exact ⟨_, scan_singleton hlead⟩
        · refine ⟨inside 1 (a * 64 + b), ?_⟩
          rw [List.take_succ_cons, scan_cons hlead, List.take_succ_cons, List.take_zero,
            scan_singleton hinner]
          rfl
  | @four a b c d ha hb hc hd hlow hhigh =>
      have hlead := step_lead_four ha
      rcases leadFour_bounds hb hlow hhigh with ⟨hleast, hmost⟩
      rcases inside_bounds 2 (a * 64 + b) hc with ⟨hleast', hmost'⟩
      -- Only the second byte has bounds of its own, as above.
      have hsecond : step (some (leadFour a)) (UInt8.ofNat (b + 128)) =
          ([], some (inside 2 (a * 64 + b))) := step_inner hb rfl hleast hmost
      have hthird : step (some (inside 2 (a * 64 + b))) (UInt8.ofNat (c + 128)) =
          ([], some (inside 1 ((a * 64 + b) * 64 + c))) := step_inner hc rfl hleast' hmost'
      have hlast := step_last ((a * 64 + b) * 64 + c) hd
      refine ⟨?_, ?_⟩
      · rw [scan_cons hlead, scan_cons hsecond, scan_cons hthird, scan_singleton hlast]
        rfl
      · -- One state for each place where the four bytes can be cut.
        intro k hpos hk
        simp only [List.length_cons, List.length_nil] at hk
        have hcases : k = 1 ∨ k = 2 ∨ k = 3 := by omega
        rcases hcases with rfl | rfl | rfl
        · exact ⟨_, scan_singleton hlead⟩
        · refine ⟨inside 2 (a * 64 + b), ?_⟩
          rw [List.take_succ_cons, scan_cons hlead, List.take_succ_cons, List.take_zero,
            scan_singleton hsecond]
          rfl
        · refine ⟨inside 1 ((a * 64 + b) * 64 + c), ?_⟩
          rw [List.take_succ_cons, scan_cons hlead, List.take_succ_cons, scan_cons hsecond,
            List.take_succ_cons, List.take_zero, scan_singleton hthird]
          rfl

/-- The encoding of a character is read as the character, and none is left open. -/
theorem scan_utf8EncodeChar (c : Char) :
    scan none (String.utf8EncodeChar c) = ([some c], none) := by
  rw [(encodes_char c).readsAs.whole, Char.ofNat_toNat]

/-- A beginning of an encoding is read as nothing, but leaves a character open. -/
theorem scan_take_utf8EncodeChar (c : Char) {k : Nat} (hpos : 0 < k) (hk : k < c.utf8Size) :
    ∃ p, scan none ((String.utf8EncodeChar c).take k) = ([], some p) :=
  (encodes_char c).readsAs.part k hpos (by rw [String.length_utf8EncodeChar]; exact hk)

/-- The encoding of a character is not a part of another, at its beginning. -/
theorem utf8Size_le_of_prefix {c d : Char}
    (h : String.utf8EncodeChar d <+: String.utf8EncodeChar c) : c.utf8Size ≤ d.utf8Size := by
  by_contra hlt
  have htake := List.prefix_iff_eq_take.mp h
  rw [String.length_utf8EncodeChar] at htake
  -- Read as a part of `c` it is nothing, and by itself it is `d`.
  rcases scan_take_utf8EncodeChar c d.utf8Size_pos (by omega) with ⟨p, hpart⟩
  rw [← htake, scan_utf8EncodeChar, Prod.mk.injEq] at hpart
  exact absurd hpart.1 (List.cons_ne_nil _ _)

/-- Reading goes on behind a character as if it had just begun. -/
theorem segments_utf8EncodeChar_append (c : Char) (rest : List UInt8) :
    segments (String.utf8EncodeChar c ++ rest) = some c :: segments rest := by
  rw [segments, segmentsFrom_append, scan_utf8EncodeChar]
  rfl

theorem validPrefix_utf8EncodeChar_append (c : Char) (rest : List UInt8) :
    validPrefix (String.utf8EncodeChar c ++ rest) = c :: validPrefix rest := by
  rw [validPrefix, segments_utf8EncodeChar_append, leading]
  rfl

/-- A cut character is not shown. -/
theorem validPrefix_take_utf8EncodeChar (c : Char) {k : Nat} (hk : k < c.utf8Size) :
    validPrefix ((String.utf8EncodeChar c).take k) = [] := by
  by_cases hzero : k = 0
  · rw [hzero, List.take_zero]
    rfl
  · rcases scan_take_utf8EncodeChar c (Nat.pos_of_ne_zero hzero) hk with ⟨p, hpart⟩
    -- The character that is left open is a stretch without text.
    have happend := segmentsFrom_append none ((String.utf8EncodeChar c).take k) []
    rw [List.append_nil, hpart] at happend
    rw [validPrefix, segments, happend]
    rfl

/-- Bytes that begin the encoding of a text are read as a beginning of it, by
    induction on the text. -/
theorem validPrefix_isPrefix {bytes : List UInt8} {t : Text} (h : bytes <+: t.bytes) :
    validPrefix bytes <+: t := by
  induction t generalizing bytes with
  | nil =>
      rw [Text.bytes_nil, List.prefix_nil] at h
      rw [h]
      exact List.nil_prefix
  | cons c t ih =>
      rw [Text.bytes_cons] at h
      by_cases hlong : c.utf8Size ≤ bytes.length
      · -- The first character is there, and the rest begins the rest.
        have hfirst : String.utf8EncodeChar c <+: bytes := by
          refine List.prefix_of_prefix_length_le (List.prefix_append _ _) h ?_
          rw [String.length_utf8EncodeChar]
          exact hlong
        rcases hfirst with ⟨rest, rfl⟩
        rw [validPrefix_utf8EncodeChar_append, List.cons_prefix_cons]
        exact ⟨rfl, ih ((List.prefix_append_right_inj _).mp h)⟩
      · -- The first character is cut, so there is nothing to be read.
        have htake := List.prefix_iff_eq_take.mp h
        rw [List.take_append_of_le_length (by rw [String.length_utf8EncodeChar]; omega)] at htake
        rw [htake, validPrefix_take_utf8EncodeChar c (by omega)]
        exact List.nil_prefix

end Utf8

end Stencil
