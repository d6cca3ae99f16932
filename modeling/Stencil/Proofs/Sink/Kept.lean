import Stencil.Sink.LineBuffer
import Stencil.Sink.RegionSink

/-!
# What a Bounded Buffer Keeps

The two buffers do the same to the region they write into: a run is cut at the
limit, a character is stored or dropped whole, and completing the output writes
a terminator or does nothing. They differ in where the limit comes from. So
there is one account of what they keep, in terms of bytes alone: how many are
kept already, how many there is room for, and what is sent.

The account needs an invariant, that the cursor has not passed the limit and
the limit is not past the end of the region. A fresh buffer has it and every
call keeps it, which makes the written bytes of a region grow at the end only.

## Main definitions

* `Region.hear`: What a call on a buffer does to its region.
* `Region.Fits`: The cursor is up to the limit, and the limit in the region.
* `keep`, `keepAll`: The bytes kept of a call, and of calls in order.

## Theorems

* `Region.written_hear`: A call keeps what the account says.
* `RegionSink.bytes_acceptAll`, `LineBuffer.bytes_acceptAll`: So do all calls.
-/

namespace Stencil

namespace Region

/-- What a call on a buffer does to its region. -/
def hear (limit : Nat) (terminated : Bool) (r : Region) : Event → Region
  | .char c => r.putChar limit c
  | .text t => r.put limit t.bytes
  | .finish => if terminated then r.terminate else r

/-- The cursor has not passed the limit, and the region reaches that far. -/
structure Fits (r : Region) (limit : Nat) : Prop where
  cursor_le : r.cursor ≤ limit
  limit_le : limit ≤ r.bytes.length

end Region

/-- The bytes kept after a call, with room for `limit` bytes of which some are
    kept already. -/
def keep (limit : Nat) (kept : List UInt8) : Event → List UInt8
  | .char c =>
    if c.utf8Size ≤ limit - kept.length then kept ++ String.utf8EncodeChar c else kept
  | .text t => kept ++ t.bytes.take (limit - kept.length)
  | .finish => kept

/-- The bytes kept after calls in order. -/
def keepAll (limit : Nat) (kept : List UInt8) (events : List Event) : List UInt8 :=
  events.foldl (keep limit) kept

theorem keepAll_cons (limit : Nat) (kept : List UInt8) (e : Event) (rest : List Event) :
    keepAll limit kept (e :: rest) = keepAll limit (keep limit kept e) rest := rfl

namespace Region

variable {r : Region} {limit : Nat}

theorem Fits.length_written (h : r.Fits limit) : r.written.length = r.cursor :=
  List.length_take_of_le (Nat.le_trans h.cursor_le h.limit_le)

/-- Writing puts what fits behind what was written. -/
theorem written_put (h : r.Fits limit) (new : List UInt8) :
    (r.put limit new).written = r.written ++ new.take (limit - r.cursor) := by
  have hcursor := h.cursor_le
  have hlimit := h.limit_le
  -- The region reaches past the limit, so what is cut there fits.
  have hroom : (new.take (limit - r.cursor)).length ≤ r.bytes.length - r.cursor := by
    rw [List.length_take]
    omega
  have hlength : (r.bytes.take r.cursor ++ new.take (limit - r.cursor)).length =
      r.cursor + (new.take (limit - r.cursor)).length := by
    rw [List.length_append, List.length_take_of_le (Nat.le_trans hcursor hlimit)]
  -- The cursor ends behind the new bytes, so they are what is added.
  simp only [written, put, overwrite]
  rw [List.take_of_length_le hroom]
  exact List.take_left' hlength

theorem Fits.put (h : r.Fits limit) (new : List UInt8) : (r.put limit new).Fits limit := by
  have hcursor := h.cursor_le
  refine ⟨?_, ?_⟩
  -- The bytes stored are as many as there is room for, at most.
  · simp only [Region.put, List.length_take]
    omega
  · rw [length_put]
    exact h.limit_le

theorem written_putChar (h : r.Fits limit) (c : Char) :
    (r.putChar limit c).written =
      if c.utf8Size ≤ limit - r.cursor then r.written ++ String.utf8EncodeChar c
      else r.written := by
  rw [Region.putChar]
  by_cases hroom : c.utf8Size ≤ limit - r.cursor
  · rw [if_pos hroom, if_pos hroom, written_put h,
      List.take_of_length_le (by rw [String.length_utf8EncodeChar]; exact hroom)]
  · rw [if_neg hroom, if_neg hroom]

theorem Fits.putChar (h : r.Fits limit) (c : Char) : (r.putChar limit c).Fits limit := by
  rw [Region.putChar]
  by_cases hroom : c.utf8Size ≤ limit - r.cursor
  · rw [if_pos hroom]
    exact h.put _
  · rw [if_neg hroom]
    exact h

theorem written_terminate (r : Region) : r.terminate.written = r.written :=
  -- The terminator stands at the cursor, behind what was written.
  List.take_set_of_le (Nat.le_refl _)

theorem Fits.terminate (h : r.Fits limit) : r.terminate.Fits limit := by
  refine ⟨h.cursor_le, ?_⟩
  rw [length_terminate]
  exact h.limit_le

theorem Fits.hear (h : r.Fits limit) (terminated : Bool) (e : Event) :
    (r.hear limit terminated e).Fits limit := by
  cases e with
  | char c => exact h.putChar c
  | text t => exact h.put _
  | finish =>
      rw [Region.hear]
      split
      · exact h.terminate
      · exact h

/-- A call on a buffer keeps what the account says. -/
theorem written_hear (h : r.Fits limit) (terminated : Bool) (e : Event) :
    (r.hear limit terminated e).written = keep limit r.written e := by
  cases e with
  | char c => rw [Region.hear, written_putChar h, keep, h.length_written]
  | text t => rw [Region.hear, written_put h, keep, h.length_written]
  | finish =>
      rw [Region.hear, keep]
      split
      · exact written_terminate r
      · rfl

/-- So do all calls, by induction along them. -/
theorem written_foldl_hear (h : r.Fits limit) (terminated : Bool) (es : List Event) :
    (es.foldl (hear limit terminated) r).written = keepAll limit r.written es := by
  induction es generalizing r with
  | nil => rfl
  | cons e rest ih =>
      rw [List.foldl_cons, ih (h.hear terminated e), written_hear h, keepAll_cons]

end Region

namespace RegionSink

theorem accept_eq_hear (s : RegionSink) (e : Event) :
    Sink.accept s e = { s with region := s.region.hear s.limit s.terminated e } := by
  cases e with
  | char c => rfl
  | text t => rfl
  | finish =>
      -- Whether a terminator is written is the flag of the sink.
      rcases s with ⟨region, limit, terminated⟩
      cases terminated <;> rfl

theorem acceptAll_eq_hear (s : RegionSink) (es : List Event) :
    Sink.acceptAll s es =
      { s with region := es.foldl (Region.hear s.limit s.terminated) s.region } := by
  induction es generalizing s with
  | nil => rfl
  | cons e rest ih =>
      rw [Sink.acceptAll_cons, ih (Sink.accept s e), accept_eq_hear, List.foldl_cons]

theorem bytes_acceptAll {s : RegionSink} (h : s.region.Fits s.limit) (es : List Event) :
    (Sink.acceptAll s es).bytes = keepAll s.limit s.bytes es := by
  rw [acceptAll_eq_hear]
  exact Region.written_foldl_hear h s.terminated es

/-- A fresh sink has room for its whole region, or for all but the last byte. -/
theorem fits_withTerminator (bytes : List UInt8) (terminated : Bool) :
    (withTerminator bytes terminated).region.Fits (withTerminator bytes terminated).limit := by
  refine ⟨Nat.zero_le _, ?_⟩
  cases terminated with
  | false => exact Nat.le_refl _
  | true => exact Nat.sub_le _ _

theorem bytes_withTerminator (bytes : List UInt8) (terminated : Bool) (es : List Event) :
    (Sink.acceptAll (withTerminator bytes terminated) es).bytes =
      keepAll (withTerminator bytes terminated).limit [] es :=
  bytes_acceptAll (fits_withTerminator bytes terminated) es

end RegionSink

namespace LineBuffer

variable {capacity : Nat}

theorem accept_eq_hear (b : LineBuffer capacity) (e : Event) :
    Sink.accept b e = ⟨b.region.hear (capacity - 1) true e⟩ := by
  cases e <;> rfl

theorem acceptAll_eq_hear (b : LineBuffer capacity) (es : List Event) :
    Sink.acceptAll b es = ⟨es.foldl (Region.hear (capacity - 1) true) b.region⟩ := by
  induction es generalizing b with
  | nil => rfl
  | cons e rest ih =>
      rw [Sink.acceptAll_cons, ih (Sink.accept b e), accept_eq_hear, List.foldl_cons]

theorem bytes_acceptAll {b : LineBuffer capacity} (h : b.region.Fits (capacity - 1))
    (es : List Event) : (Sink.acceptAll b es).bytes = keepAll (capacity - 1) b.bytes es := by
  rw [acceptAll_eq_hear]
  exact Region.written_foldl_hear h true es

theorem fits_empty : (empty : LineBuffer capacity).region.Fits (capacity - 1) := by
  refine ⟨Nat.zero_le _, ?_⟩
  simp only [empty, Region.fresh, List.length_replicate]
  omega

theorem bytes_empty (es : List Event) :
    (Sink.acceptAll (empty : LineBuffer capacity) es).bytes = keepAll (capacity - 1) [] es := by
  rw [bytes_acceptAll fits_empty]
  congr 1

end LineBuffer

end Stencil
