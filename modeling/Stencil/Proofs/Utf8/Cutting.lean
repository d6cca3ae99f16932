import Stencil.Proofs.Utf8.Decoding

/-!
# Cutting an Encoded Text

The bytes of a text can be cut anywhere, and what is in front of the cut is
again the bytes of a text, except that its last character may have lost some
of its bytes. There are at most three of such a rest, since no character has
more than four bytes. It is read as nothing, so that a reader sees the
characters that are there as a whole and only these.

Nor is there a complete character in the rest, at whatever place one begins to
look. It begins like a longer character and no encoding begins with another;
and the bytes behind its first are such that no encoding begins with them. So
nothing that could have been shown is lost by showing nothing of it.

## Main definitions

* `Utf8.Cut`: Some of the bytes of one character.
* `Utf8.Continues`: A byte continues a character.

## Theorems

* `Utf8.take_bytes`: A text that is cut leaves a text and a rest.
* `Utf8.validPrefix_bytes_append`: A text in front is read as itself.
* `Utf8.isPrefix_validPrefix`: No text in front is longer than what is read.
* `Utf8.Cut.not_infix`: No character stands in a rest.
-/

namespace Stencil

namespace Utf8

/-- Some of the bytes of a character from its first on, and not all of them.
    They may be none. -/
def Cut (part : List UInt8) : Prop :=
  ∃ c : Char, part <+: String.utf8EncodeChar c ∧ part ≠ String.utf8EncodeChar c

theorem cut_take (c : Char) {k : Nat} (hk : k < c.utf8Size) :
    Cut ((String.utf8EncodeChar c).take k) := by
  refine ⟨c, List.take_prefix _ _, fun hall => ?_⟩
  have hlength := congrArg List.length hall
  rw [List.length_take, String.length_utf8EncodeChar] at hlength
  omega

theorem cut_nil : Cut [] := cut_take 'a' (k := 0) (by decide)

/-- The character that a rest begins, and how much of it is there. -/
theorem Cut.exists_take {part : List UInt8} (h : Cut part) :
    ∃ c : Char, part.length < c.utf8Size ∧ part = (String.utf8EncodeChar c).take part.length := by
  rcases h with ⟨c, hbegins, hne⟩
  refine ⟨c, ?_, List.prefix_iff_eq_take.mp hbegins⟩
  have hle := hbegins.length_le
  rw [String.length_utf8EncodeChar] at hle
  by_contra hge
  -- As long as the character it would be all of it.
  refine hne (hbegins.eq_of_length ?_)
  rw [String.length_utf8EncodeChar]
  omega

theorem Cut.length_le {part : List UInt8} (h : Cut part) : part.length ≤ 3 := by
  rcases h.exists_take with ⟨c, hlt, -⟩
  have hfour := c.utf8Size_le_four
  omega

/-- A rest is read as nothing. -/
theorem Cut.validPrefix_eq {part : List UInt8} (h : Cut part) : validPrefix part = [] := by
  rcases h.exists_take with ⟨c, hlt, htake⟩
  rw [htake]
  exact validPrefix_take_utf8EncodeChar c hlt

/-- A text in front of other bytes is read as itself, and they as if they stood
    alone. -/
theorem validPrefix_bytes_append (t : Text) (rest : List UInt8) :
    validPrefix (t.bytes ++ rest) = t ++ validPrefix rest := by
  induction t with
  | nil => rfl
  | cons c t ih =>
      rw [Text.bytes_cons, List.append_assoc, validPrefix_utf8EncodeChar_append, ih,
        List.cons_append]

/-- A text that the bytes begin with is read in front of whatever else is read. -/
theorem isPrefix_validPrefix {t : Text} {bytes : List UInt8} (h : t.bytes <+: bytes) :
    t <+: validPrefix bytes := by
  rcases h with ⟨rest, rfl⟩
  rw [validPrefix_bytes_append]
  exact List.prefix_append _ _

/-- Wherever the bytes of a text are cut, there is a text in front of the cut and
    behind it a rest of the character that was cut. By induction on the text: the
    cut is in its first character or behind it. -/
theorem take_bytes (t : Text) (n : Nat) :
    ∃ u part, t.bytes.take n = Text.bytes u ++ part ∧ Cut part := by
  induction t generalizing n with
  | nil =>
      refine ⟨[], [], ?_, cut_nil⟩
      simp only [Text.bytes_nil, List.take_nil, List.append_nil]
  | cons c t ih =>
      rw [Text.bytes_cons]
      -- Within the first character it is the first that is cut, and nothing is in front.
      by_cases hin : n < c.utf8Size
      · refine ⟨[], (String.utf8EncodeChar c).take n, ?_, cut_take c hin⟩
        rw [List.take_append_of_le_length, Text.bytes_nil, List.nil_append]
        rw [String.length_utf8EncodeChar]
        omega
      -- Behind it the same cut is made in the rest of the text.
      · rcases ih (n - c.utf8Size) with ⟨u, part, htake, hcut⟩
        refine ⟨c :: u, part, ?_, hcut⟩
        rw [List.take_append, String.length_utf8EncodeChar, htake, List.take_of_length_le,
          Text.bytes_cons, List.append_assoc]
        rw [String.length_utf8EncodeChar]
        omega

/-- A byte that continues a character. No character begins with one. -/
def Continues (b : UInt8) : Prop := 0x80 ≤ b.toNat ∧ b.toNat < 0xC0

theorem continues_ofNat {k : Nat} (h : k < 64) : Continues (UInt8.ofNat (k + 128)) := by
  have hbyte : (UInt8.ofNat (k + 128)).toNat = k + 128 :=
    UInt8.toNat_ofNat_of_lt' (by omega : k + 128 < 256)
  unfold Continues
  omega

theorem not_continues_ofNat {k : Nat} (h : k < 256) (hout : k < 0x80 ∨ 0xC0 ≤ k) :
    ¬ Continues (UInt8.ofNat k) := by
  have hbyte : (UInt8.ofNat k).toNat = k := UInt8.toNat_ofNat_of_lt' h
  unfold Continues
  omega

/-- In the bytes of a code point all but the first continue, and the first does
    not. -/
theorem Encodes.continues {n : Nat} {bytes : List UInt8} (h : Encodes n bytes) :
    ∃ first rest, bytes = first :: rest ∧ ¬ Continues first ∧ ∀ b ∈ rest, Continues b := by
  cases h with
  | one ha =>
      exact ⟨_, _, rfl, not_continues_ofNat (by omega) (by omega), by simp⟩
  | two hlow hhigh hb =>
      refine ⟨_, _, rfl, not_continues_ofNat (by omega) (by omega), ?_⟩
      simp only [List.mem_singleton, forall_eq]
      exact continues_ofNat hb
  | three ha hb hc hlow hhigh =>
      refine ⟨_, _, rfl, not_continues_ofNat (by omega) (by omega), ?_⟩
      simp only [List.mem_cons, List.not_mem_nil, or_false, forall_eq_or_imp, forall_eq]
      exact ⟨continues_ofNat hb, continues_ofNat hc⟩
  | four ha hb hc hd hlow hhigh =>
      refine ⟨_, _, rfl, not_continues_ofNat (by omega) (by omega), ?_⟩
      simp only [List.mem_cons, List.not_mem_nil, or_false, forall_eq_or_imp, forall_eq]
      exact ⟨continues_ofNat hb, continues_ofNat hc, continues_ofNat hd⟩

/-- No character stands in a rest. -/
theorem Cut.not_infix {part : List UInt8} (h : Cut part) (d : Char) :
    ¬ String.utf8EncodeChar d <:+: part := by
  rintro ⟨before, after, hsplit⟩
  rcases h with ⟨c, hbegins, hne⟩
  cases before with
  | nil =>
      -- In front: the rest would be as long as the character that it begins.
      rw [List.nil_append] at hsplit
      have hd : String.utf8EncodeChar d <+: String.utf8EncodeChar c :=
        ⟨after ++ hbegins.choose, by rw [← List.append_assoc, hsplit, hbegins.choose_spec]⟩
      have hle := utf8Size_le_of_prefix hd
      have hlength := congrArg List.length hsplit
      rw [List.length_append, String.length_utf8EncodeChar] at hlength
      have hmost := hbegins.length_le
      refine hne (hbegins.eq_of_length ?_)
      rw [String.length_utf8EncodeChar] at hmost ⊢
      omega
  | cons first before =>
      -- Further in: it would begin with a byte that continues the other character.
      rcases (encodes_char d).continues with ⟨lead, more, hlead, hnot, -⟩
      rcases (encodes_char c).continues with ⟨start, rest, hstart, -, hall⟩
      refine hnot (hall lead ?_)
      rcases hbegins with ⟨missing, hwhole⟩
      rw [← hsplit, hlead, hstart, List.cons_append, List.cons_append, List.cons_append,
        List.cons.injEq] at hwhole
      rw [← hwhole.2]
      simp

end Utf8

end Stencil
