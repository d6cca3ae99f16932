import Stencil.Proofs.Utf8.Decoding

/-!
# Well-Formed Sequences

Which bytes make up a character is a table in the standard: nine rows, and in
each a range for every byte of the sequence. The rows differ in the lead byte,
so it settles the row, and the second byte has a narrower range where a wider
one would let in an overlong form, a surrogate or a value that is too large.

A sequence fits a row exactly if it is the encoding of a character. So the table
describes what is written, and a reader that stays within a row as long as it can
describes what is read: with a character open, the bytes so far fill a row from
the left, and the ranges that are left are the ones of the state.

## Main definitions

* `Utf8.table`: The rows of well-formed sequences.
* `Utf8.Fits`: Bytes fall into the ranges of a row.
* `Utf8.WellFormed`: Bytes fit a row of the table.
* `Utf8.Begins`: Bytes are the beginning of a well-formed sequence.

## Theorems

* `Utf8.wellFormed_iff`: The well-formed sequences are the encodings of
  characters.
* `Utf8.begins_of_scan`: Bytes that leave a character open begin a sequence.
* `Utf8.begins_of_accepted`: So do they with a byte more that is accepted.
-/

namespace Stencil

namespace Utf8

/-- The bytes from the first to the second. -/
abbrev Range := Nat × Nat

/-- Where a byte that continues a character lies. -/
def tail : Range := (0x80, 0xBF)

/-- The well-formed sequences, a range for each byte. -/
def table : List (List Range) :=
  [[(0x00, 0x7F)],
    [(0xC2, 0xDF), tail],
    [(0xE0, 0xE0), (0xA0, 0xBF), tail],
    [(0xE1, 0xEC), tail, tail],
    [(0xED, 0xED), (0x80, 0x9F), tail],
    [(0xEE, 0xEF), tail, tail],
    [(0xF0, 0xF0), (0x90, 0xBF), tail, tail],
    [(0xF1, 0xF3), tail, tail, tail],
    [(0xF4, 0xF4), (0x80, 0x8F), tail, tail]]

/-- Bytes fall into ranges, one into each. -/
inductive Fits : List Range → List UInt8 → Prop
  | nil : Fits [] []
  | cons {r : Range} {row : List Range} {b : UInt8} {bytes : List UInt8} :
    r.1 ≤ b.toNat → b.toNat ≤ r.2 → Fits row bytes → Fits (r :: row) (b :: bytes)

/-- Bytes that the table has a row for. -/
def WellFormed (bytes : List UInt8) : Prop := ∃ row ∈ table, Fits row bytes

/-- Bytes that some others complete to a well-formed sequence. -/
def Begins (bytes : List UInt8) : Prop := ∃ more, WellFormed (bytes ++ more)

theorem Fits.append {done row : List Range} {part bytes : List UInt8} (h : Fits done part)
    (hrow : Fits row bytes) : Fits (done ++ row) (part ++ bytes) := by
  induction h with
  | nil => exact hrow
  | cons hlow hhigh _ ih => exact .cons hlow hhigh ih

theorem Fits.cons_ofNat {r : Range} {row : List Range} {k : Nat} {bytes : List UInt8}
    (h : Fits row bytes) (hlow : r.1 ≤ k) (hhigh : k ≤ r.2) (hbyte : k < 256) :
    Fits (r :: row) (UInt8.ofNat k :: bytes) := by
  have hk : (UInt8.ofNat k).toNat = k := UInt8.toNat_ofNat_of_lt' hbyte
  exact .cons (hk.symm ▸ hlow) (hk.symm ▸ hhigh) h

theorem fits_tail {row : List Range} {k : Nat} {bytes : List UInt8} (h : Fits row bytes)
    (hk : k < 64) : Fits (tail :: row) (UInt8.ofNat (k + 128) :: bytes) :=
  h.cons_ofNat (Nat.le_add_left 128 k) (show k + 128 ≤ 0xBF by omega) (by omega)

/-- The parts of a code point fit a row, which the lead part decides. -/
theorem Encodes.wellFormed {n : Nat} {bytes : List UInt8} (h : Encodes n bytes) :
    WellFormed bytes := by
  cases h with
  | one ha =>
      exact ⟨[(0x00, 0x7F)], by decide,
        Fits.nil.cons_ofNat (Nat.zero_le _) (by omega) (by omega)⟩
  | two hlow hhigh hb =>
      exact ⟨[(0xC2, 0xDF), tail], by decide,
        (fits_tail .nil hb).cons_ofNat (by omega) (by omega) (by omega)⟩
  | @three a b c ha hb hc hlow hhigh =>
      have htail := fits_tail .nil hc
      -- The second byte has a range of its own behind the lowest lead and behind that of
      -- the surrogates, and the full one else.
      by_cases hzero : a = 0
      · have hbound := hlow hzero
        exact ⟨[(0xE0, 0xE0), (0xA0, 0xBF), tail], by decide,
          (htail.cons_ofNat (by omega) (by omega) (by omega)).cons_ofNat (by omega) (by omega)
            (by omega)⟩
      by_cases hsurrogate : a = 13
      · have hbound := hhigh hsurrogate
        exact ⟨[(0xED, 0xED), (0x80, 0x9F), tail], by decide,
          (htail.cons_ofNat (by omega) (by omega) (by omega)).cons_ofNat (by omega) (by omega)
            (by omega)⟩
      by_cases hbelow : a < 13
      · exact ⟨[(0xE1, 0xEC), tail, tail], by decide,
          (fits_tail htail hb).cons_ofNat (by omega) (by omega) (by omega)⟩
      · exact ⟨[(0xEE, 0xEF), tail, tail], by decide,
          (fits_tail htail hb).cons_ofNat (by omega) (by omega) (by omega)⟩
  | @four a b c d ha hb hc hd hlow hhigh =>
      have htail := fits_tail (fits_tail .nil hd) hc
      -- And here behind the lowest lead and behind the highest.
      by_cases hzero : a = 0
      · have hbound := hlow hzero
        exact ⟨[(0xF0, 0xF0), (0x90, 0xBF), tail, tail], by decide,
          (htail.cons_ofNat (by omega) (by omega) (by omega)).cons_ofNat (by omega) (by omega)
            (by omega)⟩
      by_cases hlast : a = 4
      · have hbound := hhigh hlast
        exact ⟨[(0xF4, 0xF4), (0x80, 0x8F), tail, tail], by decide,
          (htail.cons_ofNat (by omega) (by omega) (by omega)).cons_ofNat (by omega) (by omega)
            (by omega)⟩
      · exact ⟨[(0xF1, 0xF3), tail, tail, tail], by decide,
          (fits_tail htail hb).cons_ofNat (by omega) (by omega) (by omega)⟩

section

variable {x y z w : UInt8}

/-- Two bytes in the ranges of a row hold the two parts of a code point. They are what
    is left of the bytes without their marks. -/
theorem encodes_two (hx : 0xC2 ≤ x.toNat) (hx' : x.toNat ≤ 0xDF) (hy : 0x80 ≤ y.toNat)
    (hy' : y.toNat ≤ 0xBF) : ∃ n, Encodes n [x, y] := by
  have h := Encodes.two (a := x.toNat - 192) (b := y.toNat - 128) (by omega) (by omega) (by omega)
  rw [Nat.sub_add_cancel (by omega), Nat.sub_add_cancel (by omega), UInt8.ofNat_toNat,
    UInt8.ofNat_toNat] at h
  exact ⟨_, h⟩

/-- Three bytes hold three parts, and the leads of overlong forms and of surrogates
    narrow the second. -/
theorem encodes_three (hx : 0xE0 ≤ x.toNat) (hx' : x.toNat ≤ 0xEF) (hy : 0x80 ≤ y.toNat)
    (hy' : y.toNat ≤ 0xBF) (hz : 0x80 ≤ z.toNat) (hz' : z.toNat ≤ 0xBF)
    (hlow : x.toNat = 0xE0 → 0xA0 ≤ y.toNat) (hhigh : x.toNat = 0xED → y.toNat ≤ 0x9F) :
    ∃ n, Encodes n [x, y, z] := by
  have h := Encodes.three (a := x.toNat - 224) (b := y.toNat - 128) (c := z.toNat - 128)
    (by omega) (by omega) (by omega) (by omega) (by omega)
  rw [Nat.sub_add_cancel (by omega), Nat.sub_add_cancel (by omega), Nat.sub_add_cancel (by omega),
    UInt8.ofNat_toNat, UInt8.ofNat_toNat, UInt8.ofNat_toNat] at h
  exact ⟨_, h⟩

/-- Four bytes hold four parts, and the leads of overlong forms and of too large
    values narrow the second. -/
theorem encodes_four (hx : 0xF0 ≤ x.toNat) (hx' : x.toNat ≤ 0xF4) (hy : 0x80 ≤ y.toNat)
    (hy' : y.toNat ≤ 0xBF) (hz : 0x80 ≤ z.toNat) (hz' : z.toNat ≤ 0xBF) (hw : 0x80 ≤ w.toNat)
    (hw' : w.toNat ≤ 0xBF) (hlow : x.toNat = 0xF0 → 0x90 ≤ y.toNat)
    (hhigh : x.toNat = 0xF4 → y.toNat ≤ 0x8F) : ∃ n, Encodes n [x, y, z, w] := by
  have h := Encodes.four (a := x.toNat - 240) (b := y.toNat - 128) (c := z.toNat - 128)
    (d := w.toNat - 128) (by omega) (by omega) (by omega) (by omega) (by omega) (by omega)
  rw [Nat.sub_add_cancel (by omega), Nat.sub_add_cancel (by omega), Nat.sub_add_cancel (by omega),
    Nat.sub_add_cancel (by omega), UInt8.ofNat_toNat, UInt8.ofNat_toNat, UInt8.ofNat_toNat,
    UInt8.ofNat_toNat] at h
  exact ⟨_, h⟩

end

/-- A sequence that fits a row has the parts of a code point, row by row. -/
theorem WellFormed.encodes {bytes : List UInt8} (h : WellFormed bytes) :
    ∃ n, Encodes n bytes := by
  rcases h with ⟨row, hrow, hfits⟩
  simp only [table, List.mem_cons, List.not_mem_nil, or_false] at hrow
  rcases hrow with rfl | rfl | rfl | rfl | rfl | rfl | rfl | rfl | rfl
  -- A character of one byte, and then the row of two.
  · match hfits with
    | .cons (b := x) _ hx .nil =>
      have h := Encodes.one (show x.toNat < 128 from Nat.lt_succ_of_le hx)
      rw [UInt8.ofNat_toNat] at h
      exact ⟨_, h⟩
  · match hfits with
    | .cons hx hx' (.cons hy hy' .nil) => exact encodes_two hx hx' hy hy'
  -- Four rows of three bytes, and then three of four.
  iterate 4
    · match hfits with
      | .cons hx hx' (.cons hy hy' (.cons hz hz' .nil)) =>
        simp only [tail] at hx hx' hy hy'
        exact encodes_three (by omega) (by omega) (by omega) (by omega) hz hz' (by omega)
          (by omega)
  iterate 3
    · match hfits with
      | .cons hx hx' (.cons hy hy' (.cons hz hz' (.cons hw hw' .nil))) =>
        simp only [tail] at hx hx' hy hy'
        exact encodes_four (by omega) (by omega) (by omega) (by omega) hz hz' hw hw' (by omega)
          (by omega)

/-- The parts make a code point that is no surrogate and not too large. -/
theorem Encodes.isValidChar {n : Nat} {bytes : List UInt8} (h : Encodes n bytes) :
    n.isValidChar := by
  cases h with
  | one ha => exact Or.inl (by omega)
  | two hlow hhigh hb => exact Or.inl (by omega)
  | three ha hb hc hlow hhigh =>
      rw [Nat.isValidChar]
      omega
  | four ha hb hc hd hlow hhigh => exact Or.inr (by omega)

/-- A code point has one encoding: its size settles how many parts there are, and
    then what they are. -/
theorem Encodes.unique {m n : Nat} {first second : List UInt8} (h : Encodes m first)
    (h' : Encodes n second) (heq : m = n) : first = second := by
  cases h with
  | one =>
      cases h' with
      | one => rw [heq]
      | two | three | four => omega
  | @two a b =>
      cases h' with
      | @two a' b' =>
          obtain rfl : a = a' := by omega
          obtain rfl : b = b' := by omega
          rfl
      | one | three | four => omega
  | @three a b c =>
      cases h' with
      | @three a' b' c' =>
          obtain rfl : a = a' := by omega
          obtain rfl : b = b' := by omega
          obtain rfl : c = c' := by omega
          rfl
      | one | two | four => omega
  | @four a b c d =>
      cases h' with
      | @four a' b' c' d' =>
          obtain rfl : a = a' := by omega
          obtain rfl : b = b' := by omega
          obtain rfl : c = c' := by omega
          obtain rfl : d = d' := by omega
          rfl
      | one | two | three => omega

/-- The well-formed sequences are the encodings of characters. -/
theorem wellFormed_iff {bytes : List UInt8} :
    WellFormed bytes ↔ ∃ c : Char, String.utf8EncodeChar c = bytes := by
  refine ⟨fun h => ?_, fun ⟨c, hc⟩ => hc ▸ (encodes_char c).wellFormed⟩
  rcases h.encodes with ⟨n, hn⟩
  have hchar : (Char.ofNat n).toNat = n := by
    rw [Char.ofNat, dif_pos hn.isValidChar]
    rfl
  exact ⟨Char.ofNat n, (encodes_char (Char.ofNat n)).unique hn hchar⟩

/-- A beginning of a row can be completed, every range having a byte in it. -/
theorem begins_of_fits {done more : List Range} {part : List UInt8} (hrow : done ++ more ∈ table)
    (h : Fits done part) : Begins part := by
  have hall : ∀ row ∈ table, ∀ r ∈ row, r.1 ≤ r.2 ∧ r.2 < 256 := by decide
  -- The least byte of each range that is left completes the sequence.
  have hleast : ∀ row : List Range, (∀ r ∈ row, r.1 ≤ r.2 ∧ r.2 < 256) →
      Fits row (row.map fun r => UInt8.ofNat r.1) := by
    intro row hranges
    induction row with
    | nil => exact .nil
    | cons r row ih =>
        rcases hranges r List.mem_cons_self with ⟨hle, hbyte⟩
        exact (ih fun s hs => hranges s (List.mem_cons_of_mem _ hs)).cons_ofNat (Nat.le_refl _) hle
          (Nat.lt_of_le_of_lt hle hbyte)
  refine ⟨_, _, hrow, h.append (hleast more fun r hr => ?_)⟩
  exact hall _ hrow r (List.mem_append_right _ hr)

/-- The ranges of the bytes that are owed to an open character. -/
def Partial.row (p : Partial) : List Range :=
  (p.low.toNat, p.high.toNat) :: List.replicate (p.owed - 1) tail

/-- A byte that starts a segment is a character, or the lead of a row whose other
    ranges are owed, or it starts nothing. -/
theorem start_cases (b : UInt8) :
    (∃ c, start b = ([some c], none) ∧ WellFormed [b]) ∨ start b = ([none], none) ∨
      ∃ p r, start b = ([], some p) ∧ r :: p.row ∈ table ∧ r.1 ≤ b.toNat ∧ b.toNat ≤ r.2 := by
  -- All the 256 bytes, as the rows leave none out.
  have hall : ∀ i : Fin 256,
      (start (UInt8.ofNat i) = ([some (Char.ofNat i)], none) ∧ i.val ≤ 0x7F) ∨
        start (UInt8.ofNat i) = ([none], none) ∨
        ∃ row ∈ table, (start (UInt8.ofNat i)).1 = [] ∧
          (start (UInt8.ofNat i)).2.map Partial.row = some row.tail ∧ row ≠ [] ∧
          (row.headD tail).1 ≤ i.val ∧ i.val ≤ (row.headD tail).2 := by
    decide +kernel
  have hb := hall ⟨b.toNat, b.toNat_lt⟩
  rw [UInt8.ofNat_toNat] at hb
  rcases hb with ⟨hstart, hle⟩ | hstart | ⟨row, hrow, hnone, howed, hne, hlow, hhigh⟩
  · exact Or.inl ⟨_, hstart, [(0x00, 0x7F)], by decide, .cons (Nat.zero_le _) hle .nil⟩
  · exact Or.inr (Or.inl hstart)
  · rcases Option.map_eq_some_iff.mp howed with ⟨p, hp, howed⟩
    -- The lead falls into the first range of the row, and the others are owed.
    rcases List.exists_cons_of_ne_nil hne with ⟨r, rest, rfl⟩
    exact Or.inr (Or.inr ⟨p, r, Prod.ext hnone hp, howed ▸ hrow, hlow, hhigh⟩)

/-- A byte behind an open character is in the range that is owed first, and then
    it completes the character or leaves the other ranges owed; or it is not, and
    then the character is given up and the byte starts a segment. -/
theorem step_cases (p : Partial) (b : UInt8) :
    (p.low.toNat ≤ b.toNat ∧ b.toNat ≤ p.high.toNat ∧
      ((∃ c, step (some p) b = ([some c], none)) ∨
        ∃ q, step (some p) b = ([], some q) ∧ p.row = (p.low.toNat, p.high.toNat) :: q.row)) ∨
      step (some p) b = (none :: (start b).1, (start b).2) := by
  by_cases hwithin : p.low ≤ b ∧ b ≤ p.high
  · refine Or.inl ⟨UInt8.le_iff_toNat_le.mp hwithin.1, UInt8.le_iff_toNat_le.mp hwithin.2, ?_⟩
    by_cases howed : p.owed ≤ 1
    · exact Or.inl ⟨_, by simp only [step, hwithin, howed, and_self, if_true]; rfl⟩
    · refine Or.inr ⟨_, by simp only [step, hwithin, howed, and_self, if_true, if_false]; rfl, ?_⟩
      -- One range less is owed, and those behind the first are all alike.
      have hcount : p.owed - 1 = p.owed - 1 - 1 + 1 := by omega
      rw [Partial.row, hcount, List.replicate_succ]
      rfl
  · exact Or.inr (by simp only [step, hwithin, if_false])

/-- While a character stays open, the bytes fill ranges of its row. -/
theorem row_of_scan {p q : Partial} {bytes : List UInt8}
    (h : scan (some p) bytes = ([], some q)) :
    ∃ done, p.row = done ++ q.row ∧ Fits done bytes := by
  induction bytes generalizing p with
  | nil =>
      rw [scan_nil, Prod.mk.injEq, Option.some.injEq] at h
      exact ⟨[], by rw [h.2, List.nil_append], .nil⟩
  | cons b rest ih =>
      rcases step_cases p b with ⟨hlow, hhigh, ⟨c, hstep⟩ | ⟨next, hstep, hrow⟩⟩ | hstep
      · -- A character that is complete is not open.
        rw [scan_cons hstep, Prod.mk.injEq] at h
        exact absurd h.1 (List.cons_ne_nil _ _)
      · rw [scan_cons hstep, List.nil_append] at h
        rcases ih h with ⟨done, hdone, hfits⟩
        exact ⟨(p.low.toNat, p.high.toNat) :: done, by rw [hrow, hdone, List.cons_append],
          .cons hlow hhigh hfits⟩
      -- Nor is a character that is given up.
      · rw [scan_cons hstep, Prod.mk.injEq] at h
        exact absurd h.1 (List.cons_ne_nil _ _)

/-- Bytes that leave a character open fill a row of the table up to the ranges
    that are owed. -/
theorem open_row {part : List UInt8} {p : Partial} (h : scan none part = ([], some p)) :
    ∃ done, done ++ p.row ∈ table ∧ Fits done part := by
  cases part with
  -- Without a byte no character is open.
  | nil => exact absurd (congrArg Prod.snd h) (by simp [scan_nil])
  | cons b rest =>
      have hfirst : step none b = start b := rfl
      rcases start_cases b with ⟨c, hstart, -⟩ | hstart | ⟨q, r, hstart, hrow, hlow, hhigh⟩
      · rw [scan_cons (hfirst.trans hstart), Prod.mk.injEq] at h
        exact absurd h.1 (List.cons_ne_nil _ _)
      · rw [scan_cons (hfirst.trans hstart), Prod.mk.injEq] at h
        exact absurd h.1 (List.cons_ne_nil _ _)
      · rw [scan_cons (hfirst.trans hstart), List.nil_append] at h
        rcases row_of_scan h with ⟨done, hdone, hfits⟩
        exact ⟨r :: done, by rw [List.cons_append, ← hdone]; exact hrow, .cons hlow hhigh hfits⟩

/-- What leaves a character open can be completed to a character. -/
theorem begins_of_scan {part : List UInt8} {p : Partial} (h : scan none part = ([], some p)) :
    Begins part := by
  rcases open_row h with ⟨done, hrow, hfits⟩
  exact begins_of_fits hrow hfits

/-- A byte that an open character accepts is one that the row has a range for. -/
theorem begins_of_accepted {part : List UInt8} {p : Partial} {b : UInt8}
    (h : scan none part = ([], some p)) (hlow : p.low.toNat ≤ b.toNat)
    (hhigh : b.toNat ≤ p.high.toNat) : Begins (part ++ [b]) := by
  rcases open_row h with ⟨done, hrow, hfits⟩
  rw [Partial.row, ← List.singleton_append, ← List.append_assoc] at hrow
  exact begins_of_fits hrow (hfits.append (.cons hlow hhigh .nil))

end Utf8

end Stencil
