import Stencil.Proofs.Sink.Operations
import Stencil.Proofs.Sink.Truncation
import Stencil.Proofs.Utf8.Cutting

/-!
# What a Buffer Shows

A bounded buffer stores bytes and shows text. A run that does not fit is cut at
a byte, perhaps inside a character, and from then on the buffer ends in bytes
that are not text. Were anything stored behind them, it would be hidden for
good, the text that is shown being that in front of the first bytes that are not.

It never comes to that. A cut happens only because there is no more room, and a
buffer without room stores nothing; starting over forgets the cut together with
all the rest. So one invariant is enough. The bytes in a buffer are a text and
behind it a rest of one more character, and there is a rest only if the buffer
is full. It says nothing of how the buffer was filled, and a buffer that was
started over has it like a fresh one, whatever bytes stand behind its cursor.

## Main definitions

* `CutAtEnd`: The invariant, of the bytes kept.
* `Legible`: What is shown of the bytes in a buffer.
* `Region.Sound`: The invariant, of a region with a cursor in it.

## Theorems

* `cutAtEnd_keep`: A call keeps the invariant.
* `Region.steady_sound`: So do all operations.
* `Region.Sound.legible`: With the invariant nothing is hidden but a rest.
* `legible_used`: Both buffers, after any operations.
-/

namespace Stencil

/-- Bytes are a text and behind it a rest of one more character, and there is a
    rest only if the bytes are as many as there may be. -/
def CutAtEnd (limit : Nat) (kept : List UInt8) : Prop :=
  ∃ t part, kept = Text.bytes t ++ part ∧ Utf8.Cut part ∧ (part ≠ [] → limit ≤ kept.length)

theorem cutAtEnd_bytes (limit : Nat) (t : Text) : CutAtEnd limit t.bytes :=
  ⟨t, [], (List.append_nil _).symm, Utf8.cut_nil, fun h => absurd rfl h⟩

theorem cutAtEnd_nil (limit : Nat) : CutAtEnd limit [] := cutAtEnd_bytes limit []

/-- A run behind a text is stored whole, or is cut where there is no more room. -/
theorem cutAtEnd_take (limit : Nat) (t s : Text) :
    CutAtEnd limit (t.bytes ++ s.bytes.take (limit - t.bytes.length)) := by
  by_cases hwhole : s.bytes.length ≤ limit - t.bytes.length
  · rw [List.take_of_length_le hwhole, ← Text.bytes_append]
    exact cutAtEnd_bytes limit (t ++ s)
  -- The run is cut inside a character at most, and then there is no room left.
  · rcases Utf8.take_bytes s (limit - t.bytes.length) with ⟨u, part, htake, hcut⟩
    refine ⟨t ++ u, part, ?_, hcut, fun _ => ?_⟩
    · rw [htake, Text.bytes_append, List.append_assoc]
    · rw [List.length_append, List.length_take]
      omega

/-- A call keeps the invariant. With a rest the buffer is full and stores
    nothing; without one it holds a text, and a character or a run is added. -/
theorem cutAtEnd_keep {limit : Nat} {kept : List UInt8} (h : CutAtEnd limit kept) (e : Event) :
    CutAtEnd limit (keep limit kept e) := by
  by_cases hlong : limit ≤ kept.length
  · have hnone : keep limit kept e = kept := keepAll_of_full hlong [e]
    rw [hnone]
    exact h
  · rcases h with ⟨t, part, hkept, -, hfull⟩
    -- Where there is room there is no rest, so what is kept is a text.
    have hpart : part = [] := by
      by_contra hne
      exact hlong (hfull hne)
    rw [hpart, List.append_nil] at hkept
    subst hkept
    cases e with
    | char c =>
        -- A character is kept whole or not at all.
        by_cases hroom : c.utf8Size ≤ limit - t.bytes.length
        · have hbytes : t.bytes ++ String.utf8EncodeChar c = Text.bytes (t ++ [c]) := by
            rw [Text.bytes_append, Text.bytes_cons, Text.bytes_nil, List.append_nil]
          rw [keep, if_pos hroom, hbytes]
          exact cutAtEnd_bytes limit _
        · rw [keep, if_neg hroom]
          exact cutAtEnd_bytes limit t
    | text s => exact cutAtEnd_take limit t s
    | finish => exact cutAtEnd_bytes limit t

/-- What is shown of `size` bytes in a buffer with room for `limit`. -/
structure Legible (limit size : Nat) (bytes : List UInt8) (text : Text) : Prop where
  size_le : size ≤ limit
  length_bytes : bytes.length = size
  /-- What is not shown is a rest of one character, so three bytes at most and no
      complete character among them, and only a full buffer has one. -/
  hidden : ∃ part, bytes = text.bytes ++ part ∧ Utf8.Cut part ∧ part.length ≤ 3 ∧
    (∀ c : Char, ¬ String.utf8EncodeChar c <:+: part) ∧ (part ≠ [] → size = limit)
  /-- Every other text in front of the bytes is a part of what is shown. -/
  longest : ∀ t : Text, t.bytes <+: bytes → t <+: text

namespace Region

variable {r : Region} {limit : Nat}

/-- The cursor is where it may be, and the bytes in front of it are a text that
    is cut at its end at most. -/
structure Sound (r : Region) (limit : Nat) : Prop where
  fits : r.Fits limit
  cutAtEnd : CutAtEnd limit r.written

theorem steady_sound : Steady fun limit r => r.Sound limit where
  hear h terminated e := by
    refine ⟨h.fits.hear terminated e, ?_⟩
    rw [written_hear h.fits]
    exact cutAtEnd_keep h.cutAtEnd e
  rewind h := ⟨h.fits.rewind, cutAtEnd_nil _⟩

/-- What is read of a sound region is the text that is cut, and so all of it. -/
theorem Sound.legible (h : r.Sound limit) : Legible limit r.cursor r.written r.text := by
  rcases h.cutAtEnd with ⟨t, part, hwritten, hcut, hfull⟩
  have htext : r.text = t := by
    -- Reading stops where no character can be completed, which is in front of the rest.
    unfold text
    rw [hwritten, Utf8.validPrefix_bytes_append, hcut.validPrefix_eq, List.append_nil]
  have hcursor := h.fits.cursor_le
  have hlength := h.fits.length_written
  refine ⟨hcursor, hlength, ⟨part, ?_, hcut, hcut.length_le, hcut.not_infix, ?_⟩, ?_⟩
  · rw [htext]
    exact hwritten
  · intro hpart
    -- With a rest the buffer is full, and the cursor is not past its limit.
    have hmost := hfull hpart
    omega
  · intro u hu
    exact Utf8.isPrefix_validPrefix hu

end Region

/-- A bounded buffer after any operations shows all that is in it but a rest of
    one character, which is there only if the buffer is full. -/
theorem legible_used (bytes : List UInt8) (terminated : Bool) (capacity : Nat)
    (ops : List Operation) :
    Legible (if terminated then bytes.length - 1 else bytes.length)
        (RegionSink.used bytes terminated ops).size (RegionSink.used bytes terminated ops).bytes
        (RegionSink.used bytes terminated ops).text ∧
      Legible (capacity - 1) (LineBuffer.used capacity ops).size
        (LineBuffer.used capacity ops).bytes (LineBuffer.used capacity ops).text := by
  -- The invariant holds of both buffers at the start, and operations keep it.
  have hregion := RegionSink.used_of_steady Region.steady_sound
    ⟨RegionSink.fits_withTerminator bytes terminated, cutAtEnd_nil _⟩ ops
  have hline := LineBuffer.used_of_steady Region.steady_sound
    ⟨LineBuffer.fits_empty, cutAtEnd_nil (capacity - 1)⟩ ops
  rw [RegionSink.limit_used] at hregion
  exact ⟨hregion.legible, hline.legible⟩

/-- The second byte of the last character has no room, and its first is hidden. -/
example : (LineBuffer.used 5 [.call (.text ['a', 'é', 'é'])]).bytes = [0x61, 0xC3, 0xA9, 0xC3] ∧
    (LineBuffer.used 5 [.call (.text ['a', 'é', 'é'])]).text = ['a', 'é'] := by decide

end Stencil
