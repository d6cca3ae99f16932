import Stencil.Proofs.Utf8.WellFormed
import Mathlib.Data.Nat.Find

/-!
# Replacing What Is Not Text

Bytes that are not text all through are made into text by the practice that the
standard calls substitution of maximal subparts. Where a character begins, it is
taken over. Where none does, the longest stretch that begins one is replaced as a
whole, or the next byte alone if it begins none. Then one goes on behind what
was taken, and so every byte belongs to one character or to one replacement.

That is a description with alternatives in it, and a definition by the longest
of some stretches. Reading byte by byte follows it: as long as a character is
open its bytes begin a sequence, and the byte that ends this is read again.

## Main definitions

* `Utf8.MaximalSubpart`: A stretch that is replaced as a whole.
* `Utf8.Replaced`: A text is what is made of some bytes.

## Theorems

* `Utf8.segments_subpart`: A maximal subpart is read as one ill-formed stretch.
* `Utf8.exists_subpart`: Where no character begins there is a maximal subpart.
* `Utf8.replaced_iff`: What is made of bytes is what they are read as.
-/

namespace Stencil

namespace Utf8

/-- A stretch in front of some bytes that is replaced as a whole. No character
    begins with it, and it is the longest beginning of one, or a single byte. -/
structure MaximalSubpart (part rest : List UInt8) : Prop where
  unconvertible : ∀ sequence, WellFormed sequence → ¬ sequence <+: part ++ rest
  nonempty : part ≠ []
  shape : Begins part ∨ part.length = 1
  longest : ∀ other, other <+: part ++ rest → Begins other → other.length ≤ part.length

/-- What is made of bytes, stretch by stretch. -/
inductive Replaced : List UInt8 → Text → Prop
  | nil : Replaced [] []
  /-- A character is taken over. -/
  | character (c : Char) {rest : List UInt8} {t : Text} : Replaced rest t →
    Replaced (String.utf8EncodeChar c ++ rest) (c :: t)
  | subpart {part rest : List UInt8} {t : Text} : MaximalSubpart part rest → Replaced rest t →
    Replaced (part ++ rest) (replacement :: t)

theorem begins_nil : Begins [] :=
  ⟨[0], [(0x00, 0x7F)], by decide, .cons (Nat.zero_le _) (by decide) .nil⟩

section

variable {part rest : List UInt8}

/-- A maximal subpart that begins a character leaves it open. -/
theorem MaximalSubpart.scan (h : MaximalSubpart part rest) (hbegins : Begins part) :
    ∃ p, scan none part = ([], some p) := by
  rcases hbegins with ⟨more, hmore⟩
  rcases wellFormed_iff.mp hmore with ⟨c, hc⟩
  -- What it begins is a character, by the table.
  have htake : part = (String.utf8EncodeChar c).take part.length := by
    rw [hc, List.take_left]
  have hshort : part.length < c.utf8Size := by
    rw [← String.length_utf8EncodeChar, hc, List.length_append]
    -- Otherwise the stretch would be a character.
    refine Nat.lt_add_of_pos_right (List.length_pos_iff.mpr fun hnil => ?_)
    rw [hnil, List.append_nil] at hmore
    exact h.unconvertible part hmore (List.prefix_append _ _)
  rw [htake]
  exact scan_take_utf8EncodeChar c (List.length_pos_iff.mpr h.nonempty) hshort

/-- A maximal subpart is read as one ill-formed stretch, and what is behind it as
    if it stood alone. -/
theorem segments_subpart (h : MaximalSubpart part rest) :
    segments (part ++ rest) = none :: segments rest := by
  by_cases hbegins : Begins part
  · rcases h.scan hbegins with ⟨p, hscan⟩
    rw [segments, segmentsFrom_append, hscan, List.nil_append]
    cases rest with
    | nil => rfl
    | cons b rest =>
        rw [segmentsFrom]
        rcases step_cases p b with ⟨hlow, hhigh, -⟩ | hstep
        · -- A byte that is accepted would make the stretch longer.
          have hlonger := h.longest (part ++ [b])
            ⟨rest, by rw [List.append_assoc, List.singleton_append]⟩
            (begins_of_accepted hscan hlow hhigh)
          rw [List.length_append, List.length_singleton] at hlonger
          omega
        · rw [hstep]
          rfl
  · -- A single byte that begins nothing.
    have hsingle := h.shape.resolve_left hbegins
    rcases List.length_eq_one_iff.mp hsingle with ⟨b, rfl⟩
    have hfirst : step none b = start b := rfl
    rcases start_cases b with ⟨c, -, hwell⟩ | hstart | ⟨p, r, hstart, -⟩
    · exact absurd (List.prefix_append _ _) (h.unconvertible [b] hwell)
    · rw [segments, segmentsFrom_append, scan_singleton (hfirst.trans hstart)]
      rfl
    · exact absurd (begins_of_scan (scan_singleton (hfirst.trans hstart))) hbegins

end

/-- Where no character begins, there is a longest stretch that begins one, and it
    is a maximal subpart unless it is empty. -/
theorem exists_subpart {bytes : List UInt8} (hne : bytes ≠ [])
    (hnone : ∀ sequence, WellFormed sequence → ¬ sequence <+: bytes) :
    ∃ part rest, bytes = part ++ rest ∧ MaximalSubpart part rest := by
  classical
  have hlength := List.length_pos_iff.mpr hne
  -- The length of the longest stretch that begins a character.
  let longest := Nat.findGreatest (fun n => Begins (bytes.take n)) bytes.length
  have hbegins : Begins (bytes.take longest) :=
    Nat.findGreatest_spec (P := fun n => Begins (bytes.take n)) (Nat.zero_le _) begins_nil
  have hle : longest ≤ bytes.length := Nat.findGreatest_le _
  have hmost : ∀ other, other <+: bytes → Begins other → other.length ≤ longest := by
    intro other hother hbegin
    rw [List.prefix_iff_eq_take.mp hother] at hbegin
    exact Nat.le_findGreatest hother.length_le hbegin
  -- If nothing begins one then the first byte is taken alone.
  refine ⟨bytes.take (max longest 1), bytes.drop (max longest 1),
    (List.take_append_drop _ _).symm, ?_⟩
  have hpart : (bytes.take (max longest 1)).length = max longest 1 :=
    List.length_take_of_le (by omega)
  refine ⟨?_, ?_, ?_, ?_⟩
  · rwa [List.take_append_drop]
  · exact List.length_pos_iff.mp (by omega)
  · rcases Nat.eq_zero_or_pos longest with hzero | hpos
    · exact Or.inr (by rw [hpart, hzero]; rfl)
    · exact Or.inl (by rwa [Nat.max_eq_left hpos])
  · intro other hother hbegin
    rw [List.take_append_drop] at hother
    have := hmost other hother hbegin
    omega

theorem lossy_character (c : Char) (rest : List UInt8) :
    lossy (String.utf8EncodeChar c ++ rest) = c :: lossy rest := by
  rw [lossy, segments_utf8EncodeChar_append]
  rfl

/-- A maximal subpart makes one replacement character. -/
theorem lossy_subpart {part rest : List UInt8} (h : MaximalSubpart part rest) :
    lossy (part ++ rest) = replacement :: lossy rest := by
  rw [lossy, segments_subpart h]
  rfl

/-- What bytes are read as is made of them, by induction on how many they are:
    every stretch has a byte at least. -/
theorem replaced_lossy (bytes : List UInt8) : Replaced bytes (lossy bytes) := by
  induction hlength : bytes.length using Nat.strong_induction_on generalizing bytes with
  | _ n ih =>
      subst hlength
      by_cases hne : bytes = []
      · rw [hne]
        exact .nil
      -- Either a character is in front or it is a stretch that is replaced.
      by_cases hchar : ∃ sequence, WellFormed sequence ∧ sequence <+: bytes
      · rcases hchar with ⟨sequence, hwell, rest, rfl⟩
        rcases wellFormed_iff.mp hwell with ⟨c, rfl⟩
        rw [lossy_character]
        refine .character c (ih rest.length ?_ rest rfl)
        have hsize := c.utf8Size_pos
        rw [List.length_append, String.length_utf8EncodeChar]
        omega
      · have hnone : ∀ sequence, WellFormed sequence → ¬ sequence <+: bytes :=
          fun sequence hwell hprefix => hchar ⟨sequence, hwell, hprefix⟩
        rcases exists_subpart hne hnone with ⟨part, rest, rfl, hpart⟩
        rw [lossy_subpart hpart]
        refine .subpart hpart (ih rest.length ?_ rest rfl)
        have hpos := List.length_pos_iff.mpr hpart.nonempty
        rw [List.length_append]
        omega

/-- What is made of bytes is what they are read as, and nothing else. -/
theorem replaced_iff {bytes : List UInt8} {t : Text} : Replaced bytes t ↔ lossy bytes = t := by
  refine ⟨fun h => ?_, fun h => h ▸ replaced_lossy bytes⟩
  induction h with
  | nil => rfl
  | character c _ ih => rw [lossy_character, ih]
  | subpart hpart _ ih => rw [lossy_subpart hpart, ih]

/-- What could still have become a character is replaced at once, and what could
    not byte by byte. -/
example : lossy [0xF0, 0x9F, 0x62, 0xE0, 0x80] =
    [replacement, 'b', replacement, replacement] := by decide

/-- A text is read as itself. -/
theorem lossy_bytes (t : Text) : lossy t.bytes = t := by
  induction t with
  | nil => rfl
  | cons c t ih => rw [Text.bytes_cons, lossy_character, ih]

/-- Without a byte zero there is no null character, and none is made. -/
theorem zero_mem_bytes_lossy {bytes : List UInt8} (h : 0 ∉ bytes) : 0 ∉ (lossy bytes).bytes := by
  have hreplaced := replaced_lossy bytes
  generalize lossy bytes = t at hreplaced
  induction hreplaced with
  | nil => exact List.not_mem_nil
  | character c _ ih =>
      rw [List.mem_append, not_or] at h
      rw [Text.bytes_cons, List.mem_append, not_or]
      exact ⟨h.1, ih h.2⟩
  | subpart _ _ ih =>
      rw [List.mem_append, not_or] at h
      rw [Text.bytes_cons, List.mem_append, not_or]
      exact ⟨by decide, ih h.2⟩

end Utf8

end Stencil
