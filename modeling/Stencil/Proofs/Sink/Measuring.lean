import Stencil.Proofs.Sink.LongestFit
import Stencil.Proofs.Sink.Operations
import Stencil.Sink.Counter

/-!
# Measuring First

A counter tells how much room a rendering needs before there is any place to put
it. With that much room, none of the bounded sinks drops anything, whatever its
way of dropping: what is sent is stored behind what was there, and the sink
holds what a writer without a limit would have received. This is also true of a
rendering that fails half way, as the counter hears it half way too.

A count sticks at its largest value, and would then be too small. No buffer is
that long, its length being a word.

## Theorems

* `Counter.bytes_acceptAll`: A counter adds up what is sent.
* `keepAll_of_room`, `TextStore.text_acceptAll_of_room`: With enough room,
  nothing is dropped.
* `measured_room_suffices`: What was measured is enough for every bounded sink.
-/

namespace Stencil

/-- A counter adds up what is sent, by induction on the calls, and its cap is that of
    the sum. -/
theorem Counter.bytes_acceptAll (k : Counter) (es : List Event) :
    (Sink.acceptAll k es).bytes = k.bytes + Text.count (sentText es) := by
  induction es generalizing k with
  | nil => exact (Count.add_zero k.bytes).symm
  | cons e rest ih =>
      -- A call adds the bytes that it carries, and the notice adds none.
      have hone : (Sink.accept k e).bytes = k.bytes + Text.count e.content := by
        cases e with
        | char c => rfl
        | text t => rfl
        | finish => exact (Count.add_zero k.bytes).symm
      rw [Sink.acceptAll_cons, ih, hone, Count.add_assoc, sentText_cons]
      simp only [Text.count, Text.byteLength_append, Count.ofNat_add]

/-- A count below the largest one is exact, so what it fits into has room. -/
theorem Text.byteLength_le_of_count {t : Text} {room : Nat} (h : t.count.toNat ≤ room)
    (hroom : room < Count.limit) : t.byteLength ≤ room := by
  -- The count would stick above the room, so it has not stuck.
  rw [count, Count.toNat_ofNat] at h
  omega

/-- With enough room nothing is dropped, by induction on the calls. -/
theorem keepAll_of_room {limit : Nat} {kept : List UInt8} {es : List Event}
    (h : kept.length + (sentText es).byteLength ≤ limit) :
    keepAll limit kept es = kept ++ (sentText es).bytes := by
  induction es generalizing kept with
  | nil => exact (List.append_nil kept).symm
  | cons e rest ih =>
      rw [sentText_cons, Text.byteLength_append] at h
      -- The first call has room, and the others have the room that it leaves.
      have hkeep : keep limit kept e = kept ++ e.content.bytes := by
        cases e with
        | char c =>
            rw [Event.content, Text.byteLength_cons, Text.byteLength_nil] at h
            rw [keep, if_pos (by omega), Event.content, Text.bytes_cons, Text.bytes_nil,
              List.append_nil]
        | text t =>
            rw [Event.content] at h
            rw [keep, List.take_of_length_le (by rw [Text.length_bytes]; omega), Event.content]
        | finish => exact (List.append_nil kept).symm
      have hlength : (kept ++ e.content.bytes).length = kept.length + e.content.byteLength := by
        rw [List.length_append, Text.length_bytes]
      rw [keepAll_cons, hkeep, ih (by omega), sentText_cons, Text.bytes_append, List.append_assoc]

/-- What has room is stored, as nothing of it is cut. -/
theorem TextStore.text_acceptAll_of_room {τ : Type} [TextStore τ] {capacity : Nat}
    (h : Bounded τ capacity) {store : τ} {es : List Event}
    (hes : (text store).byteLength + (sentText es).byteLength ≤ capacity) :
    text (Sink.acceptAll store es) = text store ++ sentText es := by
  have hroom : (sentText es).byteLength ≤ capacity - (text store).byteLength := by omega
  have hstored := (text_acceptAll h store es).2.mpr (settled_of_fits hroom)
  rw [hstored, Text.fitting_of_fits hroom]

/-- The result of rendering a template is the same for all sinks. A writer without
    a limit receives all that is sent. And a sink with as much room as a counter
    measured, be it a region, a line buffer or a bounded text, in whatever state it
    is met, gets exactly that, behind what it held before. -/
theorem measured_room_suffices (template : Text) (args : Arguments) :
    (∀ {σ τ : Type} [Sink σ] [Sink τ] (a : σ) (b : τ),
        (formatTo a template args).2 = (formatTo b template args).2) ∧
      (formatTo Writer.unlimited template args).1.text = (format template args).content ∧
      (∀ (bytes : List UInt8) (terminated : Bool) (ops : List Operation),
        bytes.length < Count.limit →
        (formatTo Counter.zero template args).1.bytes.toNat ≤
          (RegionSink.used bytes terminated ops).remaining →
        (formatTo (RegionSink.used bytes terminated ops) template args).1.bytes =
          (RegionSink.used bytes terminated ops).bytes ++
            (formatTo Writer.unlimited template args).1.text.bytes) ∧
      (∀ (capacity : Nat) (ops : List Operation),
        capacity < Count.limit →
        (formatTo Counter.zero template args).1.bytes.toNat ≤
          (LineBuffer.used capacity ops).contentCapacity - (LineBuffer.used capacity ops).size →
        (formatTo (LineBuffer.used capacity ops) template args).1.bytes =
          (LineBuffer.used capacity ops).bytes ++
            (formatTo Writer.unlimited template args).1.text.bytes) ∧
      (∀ {τ : Type} [TextStore τ] (capacity : Nat) (held : τ),
        TextStore.Bounded τ capacity → capacity < Count.limit →
        (formatTo Counter.zero template args).1.bytes.toNat ≤
          capacity - (TextStore.text held).byteLength →
        TextStore.text (formatTo held template args).1 =
          TextStore.text held ++ (formatTo Writer.unlimited template args).1.text) := by
  -- The counter and the writer hear the same calls.
  have hmeasured : (formatTo Counter.zero template args).1.bytes =
      Text.count (sentText (format template args).events) := by
    rw [formatTo, Rendering.into, Counter.bytes_acceptAll]
    exact Count.zero_add _
  have hwriter : (formatTo Writer.unlimited template args).1.text =
      sentText (format template args).events :=
    Writer.text_unlimited _
  rw [hmeasured, hwriter]
  refine ⟨fun _ _ => rfl, rfl, ?_, ?_, ?_⟩
  -- A region: its limit is never past its end, so the room is shorter than the largest
  -- word.
  · intro bytes terminated ops hlength hroom
    have hfits := RegionSink.fits_used bytes terminated ops
    have hcapacity := RegionSink.capacity_used bytes terminated ops
    have hcursor := hfits.cursor_le
    have hlimit := hfits.limit_le
    have hwritten := hfits.length_written
    rw [RegionSink.capacity, Region.capacity] at hcapacity
    rw [RegionSink.remaining] at hroom
    have hsent := Text.byteLength_le_of_count hroom (by omega)
    refine (RegionSink.bytes_acceptAll hfits _).trans (keepAll_of_room ?_)
    rw [RegionSink.bytes, hwritten]
    omega
  -- A line buffer: its last byte is reserved in any state.
  · intro capacity ops hlength hroom
    have hfits := LineBuffer.fits_used capacity ops
    have hcursor := hfits.cursor_le
    have hwritten := hfits.length_written
    rw [LineBuffer.contentCapacity, LineBuffer.size] at hroom
    have hsent := Text.byteLength_le_of_count hroom (by omega)
    refine (LineBuffer.bytes_acceptAll hfits _).trans (keepAll_of_room ?_)
    rw [LineBuffer.bytes, hwritten]
    omega
  -- A bounded text: what it holds already is no more than its capacity.
  · intro τ _ capacity held hbounded hlength hroom
    have hheld := hbounded.byteLength_le held
    have hsent := Text.byteLength_le_of_count hroom (by omega)
    exact TextStore.text_acceptAll_of_room hbounded (by omega)

/-- Three bytes are measured for a rendering that fails at its second field. A region
    of four has room for them in front of the terminator, and so has a text of three,
    in which one more would be too many. -/
theorem measured_room_suffices_on_failure :
    [(7 : UInt8), 7, 7, 7].length < Count.limit ∧
      (formatTo Counter.zero ['a', '{', '}', '{', '}'] [fun _ => .char 'é']).1.bytes.toNat ≤
        (RegionSink.used [7, 7, 7, 7] true []).remaining ∧
      (formatTo (RegionSink.used [7, 7, 7, 7] true []) ['a', '{', '}', '{', '}']
          [fun _ => .char 'é']).1.bytes =
        (RegionSink.used [7, 7, 7, 7] true []).bytes ++
          (formatTo Writer.unlimited ['a', '{', '}', '{', '}']
            [fun _ => .char 'é']).1.text.bytes ∧
      TextStore.Bounded (BoundedText 3) 3 ∧
      (formatTo (BoundedText.empty : BoundedText 3) ['a', '{', '}', '{', '}']
        [fun _ => .char 'é']).1.text = ['a', 'é'] := by
  have hlength : [(7 : UInt8), 7, 7, 7].length < Count.limit := by decide
  have hroom : (formatTo Counter.zero ['a', '{', '}', '{', '}']
      [fun _ => .char 'é']).1.bytes.toNat ≤
      (RegionSink.used [7, 7, 7, 7] true []).remaining := by decide +kernel
  have hmeasured := measured_room_suffices ['a', '{', '}', '{', '}'] [fun _ => .char 'é']
  have hstored := hmeasured.2.2.2.2 3 (BoundedText.empty : BoundedText 3) (BoundedText.bounded 3)
    (by decide) (by decide +kernel)
  have hsent : (formatTo Writer.unlimited ['a', '{', '}', '{', '}']
      [fun _ => .char 'é']).1.text = ['a', 'é'] := by
    decide +kernel
  exact ⟨hlength, hroom, hmeasured.2.2.1 [7, 7, 7, 7] true [] hlength hroom, BoundedText.bounded 3,
    hstored.trans hsent⟩

end Stencil
