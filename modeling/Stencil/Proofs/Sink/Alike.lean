import Stencil.Proofs.Sink.Operations

/-!
# Two Buffers That Look the Same

There are two ways to collect a terminated line, in a buffer of its own or in a
region that is lent. One keeps the end of its content in its type and the other
in a field; and when they are started over, one writes a terminator and the
other leaves the bytes as they are. So the bytes they hold come to differ.

Nothing of this can be seen from outside. What is shown is what stands in front
of the cursor, and there the two are the same after every call and every start.
That is the whole relation: both cursors are where they may be, and the bytes in
front of them are equal. What stands behind a cursor does not take part in it,
and is never shown before it was written over.

The one view that reaches behind the cursor belongs to the buffer alone. It
shows one byte more, the terminator if the output was completed or if the buffer
was started over. In between it shows whatever byte is there.

## Main definitions

* `Region.Alike`: Two regions show the same.
* `Operation.Completes`: An operation leaves a terminated line behind.

## Theorems

* `Operation.performAll_related`: What calls and starts keep between two sinks,
  operations keep.
* `Region.Alike.hear`: A call keeps two regions alike.
* `LineBuffer.alike_used`: Both buffers are alike after any operations.
* `LineBuffer.terminated_used`: The byte at the cursor of a terminated line.
* `LineBuffer.looks_like_region`: What can be seen of both buffers.
-/

namespace Stencil

namespace Operation

variable {σ τ : Type} [Sink σ] [Sink τ]

theorem acceptAll_related {R : σ → τ → Prop}
    (hcall : ∀ s t e, R s t → R (Sink.accept s e) (Sink.accept t e)) {s : σ} {t : τ} (h : R s t)
    (es : List Event) : R (Sink.acceptAll s es) (Sink.acceptAll t es) := by
  induction es generalizing s t with
  | nil => exact h
  | cons e rest ih => exact ih (hcall s t e h)

/-- What calls and starts keep between two sinks, operations keep. -/
theorem performAll_related {R : σ → τ → Prop} {restart : σ → σ} {restart' : τ → τ}
    (hcall : ∀ s t e, R s t → R (Sink.accept s e) (Sink.accept t e))
    (hrestart : ∀ s t, R s t → R (restart s) (restart' t)) {s : σ} {t : τ} (h : R s t)
    (ops : List Operation) : R (performAll restart s ops) (performAll restart' t ops) := by
  induction ops generalizing s t with
  | nil => exact h
  | cons op rest ih =>
      -- A template is a number of calls, and the script is the same for both sinks.
      have hone : R (perform restart s op) (perform restart' t op) := by
        cases op with
        | call e => exact hcall s t e h
        | format template args => exact acceptAll_related hcall h _
        | clear => exact hrestart s t h
      exact ih hone

theorem performAll_append (restart : σ → σ) (sink : σ) (first second : List Operation) :
    performAll restart sink (first ++ second) =
      performAll restart (performAll restart sink first) second :=
  List.foldl_append

theorem performAll_calls (restart : σ → σ) (sink : σ) (es : List Event) :
    performAll restart sink (es.map call) = Sink.acceptAll sink es := by
  unfold performAll Sink.acceptAll
  rw [List.foldl_map]
  rfl

/-- An operation that leaves a terminated line behind: the notice of completion, a
    template, which gives the notice last, or starting over. -/
def Completes : Operation → Prop
  | call e => e = .finish
  | format _ _ => True
  | clear => True

end Operation

namespace Region

variable {r s : Region} {limit : Nat}

/-- Two regions show the same: both cursors are where they may be, and the bytes
    in front of them are equal. -/
structure Alike (limit : Nat) (r s : Region) : Prop where
  left : r.Fits limit
  right : s.Fits limit
  written_eq : r.written = s.written

theorem Alike.cursor_eq (h : Alike limit r s) : r.cursor = s.cursor := by
  rw [← h.left.length_written, ← h.right.length_written, h.written_eq]

/-- A call keeps two regions alike, whichever of them it terminates. -/
theorem Alike.hear (h : Alike limit r s) (terminated terminated' : Bool) (e : Event) :
    Alike limit (r.hear limit terminated e) (s.hear limit terminated' e) := by
  refine ⟨h.left.hear terminated e, h.right.hear terminated' e, ?_⟩
  -- What is kept of a call depends on what was kept before and on the limit, and on
  -- nothing else.
  rw [written_hear h.left, written_hear h.right, h.written_eq]

/-- Started over they show nothing, and a terminator is not shown. -/
theorem Alike.restart (h : Alike limit r s) : Alike limit r.rewind.terminate s.rewind := by
  refine ⟨h.left.rewind.terminate, h.right.rewind, ?_⟩
  rw [written_terminate]
  rfl

/-- Of a terminated region one byte more is the terminator. -/
theorem take_terminate (h : r.cursor < r.bytes.length) :
    r.terminate.bytes.take (r.terminate.cursor + 1) = r.terminate.written ++ [0] := by
  unfold written terminate
  rw [List.take_add_one, List.getElem?_set_self h, Option.toList_some]

end Region

namespace LineBuffer

variable {capacity : Nat}

/-- The buffer and a region of as many bytes are alike after any operations. The
    region reserves its last byte, and the buffer always does. -/
theorem alike_used (capacity : Nat) (ops : List Operation) :
    (RegionSink.used (List.replicate capacity 0) true ops).limit = capacity - 1 ∧
      Region.Alike (capacity - 1) (used capacity ops).region
        (RegionSink.used (List.replicate capacity 0) true ops).region := by
  refine Operation.performAll_related
    (R := fun (b : LineBuffer capacity) (s : RegionSink) =>
      s.limit = capacity - 1 ∧ Region.Alike (capacity - 1) b.region s.region) ?_ ?_ ?_ ops
  -- The calls: the region sink carries its limit along, which does not change.
  · rintro b s e ⟨hlimit, halike⟩
    rw [accept_eq_hear, RegionSink.accept_eq_hear, hlimit]
    exact ⟨rfl, halike.hear true s.terminated e⟩
  · rintro b s ⟨hlimit, halike⟩
    exact ⟨hlimit, halike.restart⟩
  · have hlimit : (RegionSink.withTerminator (List.replicate capacity 0) true).limit =
        capacity - 1 := by
      simp [RegionSink.withTerminator]
    -- At the start nothing is written in either.
    have hfits := RegionSink.fits_withTerminator (List.replicate capacity 0) true
    rw [hlimit] at hfits
    exact ⟨hlimit, fits_empty, hfits, rfl⟩

theorem used_concat (capacity : Nat) (ops : List Operation) (op : Operation) :
    used capacity (ops ++ [op]) = Operation.perform clear (used capacity ops) op :=
  Operation.performAll_append clear empty ops [op]

/-- A template is the calls that it makes, and then the notice of completion. -/
theorem used_format (capacity : Nat) (ops : List Operation) (template : Text)
    (args : Arguments) :
    used capacity (ops ++ [.format template args]) =
      used capacity (ops ++ (fields template args).events.map .call ++ [.call .finish]) := by
  rw [used_concat, used_concat]
  unfold used
  -- All calls of the template but the last one, and then the last one.
  rw [Operation.performAll_append, Operation.performAll_calls]
  exact Sink.acceptAll_append _ _ [.finish]

/-- The notice of completion puts a terminator at the cursor, which is in front of
    the reserved byte or at it. -/
theorem terminated_finish (hpos : 1 ≤ capacity) (ops : List Operation) :
    (used capacity (ops ++ [.call .finish])).bytesWithTerminator =
      (used capacity (ops ++ [.call .finish])).bytes ++ [0] := by
  have hcursor := (fits_used capacity ops).cursor_le
  -- Started over, the cursor stands at the first byte, and there is one.
  have hlength := length_used capacity ops
  have hfinish : used capacity (ops ++ [.call .finish]) =
      ⟨(used capacity ops).region.terminate⟩ := used_concat capacity ops _
  rw [hfinish]
  exact Region.take_terminate (by omega)

/-- An operation that completes the line leaves the terminator behind the content,
    in whatever state the buffer was before. -/
theorem terminated_used (hpos : 1 ≤ capacity) (ops : List Operation) {op : Operation}
    (h : op.Completes) :
    (used capacity (ops ++ [op])).bytesWithTerminator =
      (used capacity (ops ++ [op])).bytes ++ [0] := by
  cases op with
  | call e =>
      unfold Operation.Completes at h
      rw [h]
      exact terminated_finish hpos ops
  | format template args =>
      rw [used_format]
      exact terminated_finish hpos _
  | clear =>
      have hlength := length_used capacity ops
      have hclear : used capacity (ops ++ [.clear]) =
          ⟨(used capacity ops).region.rewind.terminate⟩ := used_concat capacity ops _
      rw [hclear]
      refine Region.take_terminate ?_
      simp only [Region.rewind]
      omega

/-- A line buffer and a terminated sink over as many zero bytes cannot be told
    apart by what they show, nor by the result of rendering into them, after any
    operations on both. Directly after an operation that completes the line the
    buffer shows its content and the terminator; without a byte it shows
    nothing, ever. -/
theorem looks_like_region (capacity : Nat) (ops : List Operation) :
    (used capacity ops).size = (RegionSink.used (List.replicate capacity 0) true ops).size ∧
      (used capacity ops).isEmpty =
        (RegionSink.used (List.replicate capacity 0) true ops).isEmpty ∧
      (used capacity ops).bytes =
        (RegionSink.used (List.replicate capacity 0) true ops).bytes ∧
      (used capacity ops).text = (RegionSink.used (List.replicate capacity 0) true ops).text ∧
      (∀ template args, (formatTo (used capacity ops) template args).2 =
        (formatTo (RegionSink.used (List.replicate capacity 0) true ops) template args).2) ∧
      (1 ≤ capacity → ∀ op : Operation, op.Completes →
        (used capacity (ops ++ [op])).bytesWithTerminator =
          (used capacity (ops ++ [op])).bytes ++ [0]) ∧
      (capacity = 0 → (used capacity ops).bytesWithTerminator = []) := by
  -- All that is shown is read off the cursor and the bytes in front of it.
  rcases alike_used capacity ops with ⟨-, halike⟩
  have hcursor := halike.cursor_eq
  refine ⟨hcursor, ?_, halike.written_eq, ?_, fun _ _ => rfl, ?_, ?_⟩
  · unfold isEmpty RegionSink.isEmpty
    rw [hcursor]
  · unfold text RegionSink.text Region.text
    rw [halike.written_eq]
  · intro hpos op hop
    exact terminated_used hpos ops hop
  · intro hzero
    -- A region without bytes has no terminator either.
    have hnone : (used capacity ops).region.bytes = [] := by
      apply List.eq_nil_of_length_eq_zero
      rw [length_used, hzero]
    unfold bytesWithTerminator
    rw [hnone, List.take_nil]

/-- Stale bytes stand behind the cursor after starting over. The terminator takes
    the place of the first of them that is not written over. -/
theorem looks_like_region_stale :
    1 ≤ 4 ∧ (Operation.call .finish).Completes ∧
      (used 4 ([.call (.text ['a', 'b', 'c']), .clear, .call (.char 'd')] ++
        [.call .finish])).bytesWithTerminator = [100] ++ [0] := by
  have hpos : 1 ≤ 4 := by decide
  have hop : (Operation.call .finish).Completes := rfl
  refine ⟨hpos, hop, ?_⟩
  exact (looks_like_region 4 _).2.2.2.2.2.1 hpos (.call .finish) hop

end LineBuffer

end Stencil
