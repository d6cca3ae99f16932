import Stencil.Proofs.Sink.Kept

/-!
# Operations on a Buffer

A buffer is used in three ways. It hears a call, it has a whole template
rendered into it, or it is started over. A buffer that a program can meet is a
fresh one after some operations, in any order and number.

Rendering a template is nothing but calls, so between two starts there are only
calls, and what every call and every start keeps is kept by all operations.
What it is can be said of the region alone, for both buffers at once: that the
cursor stays inside the region is one such thing, its length is another.

## Main definitions

* `Operation`: Something done with a buffer.
* `Operation.performAll`: Operations in order.
* `Operation.allCalls`: The calls that operations make.
* `Region.Steady`: What calls and starting over keep of a region.
* `RegionSink.used`, `LineBuffer.used`: A fresh buffer after some operations.

## Theorems

* `Operation.performAll_of_no_clear`: Without a start over there are only calls.
* `Operation.performAll_invariant`: What calls and starts keep, operations keep.
* `RegionSink.used_of_steady`, `LineBuffer.used_of_steady`: Buffers in use have it.
* `RegionSink.fits_used`, `LineBuffer.fits_used`: A buffer in use stays inside
  its region.
* `RegionSink.capacity_used`, `LineBuffer.length_used`: The region keeps its length.
-/

namespace Stencil

/-- Something done with a buffer. -/
inductive Operation
  | call (e : Event)
  /-- A template is rendered into the buffer, and the output is completed. -/
  | format (template : Text) (args : Arguments)
  | clear

namespace Operation

variable {σ : Type} [Sink σ]

/-- Do something with a buffer that is started over by `restart`. -/
def perform (restart : σ → σ) (sink : σ) : Operation → σ
  | call e => Sink.accept sink e
  | format template args => (formatTo sink template args).1
  | clear => restart sink

def performAll (restart : σ → σ) (sink : σ) (ops : List Operation) : σ :=
  ops.foldl (perform restart) sink

def calls : Operation → List Event
  | call e => [e]
  | format template args => (Stencil.format template args).events
  | clear => []

/-- The calls that operations make, in order. -/
def allCalls (ops : List Operation) : List Event := ops.flatMap calls

/-- Without a start over there are only calls, and those of templates are calls as
    well. -/
theorem performAll_of_no_clear (restart : σ → σ) (sink : σ) {ops : List Operation}
    (h : clear ∉ ops) : performAll restart sink ops = Sink.acceptAll sink (allCalls ops) := by
  induction ops generalizing sink with
  | nil => rfl
  | cons op rest ih =>
      have hrest : clear ∉ rest := fun hmem => h (List.mem_cons_of_mem op hmem)
      -- One operation is its calls, as it is not the one that has none.
      have hone : perform restart sink op = Sink.acceptAll sink op.calls := by
        cases op with
        | call e => rfl
        | format template args => rfl
        | clear => exact absurd List.mem_cons_self h
      rw [allCalls, List.flatMap_cons, Sink.acceptAll_append, ← hone]
      exact ih (perform restart sink op) hrest

theorem acceptAll_invariant {P : σ → Prop} (hcall : ∀ s e, P s → P (Sink.accept s e)) {sink : σ}
    (h : P sink) (es : List Event) : P (Sink.acceptAll sink es) := by
  induction es generalizing sink with
  | nil => exact h
  | cons e rest ih => exact ih (hcall sink e h)

/-- What calls and starts keep, operations keep. -/
theorem performAll_invariant {P : σ → Prop} {restart : σ → σ}
    (hcall : ∀ s e, P s → P (Sink.accept s e)) (hrestart : ∀ s, P s → P (restart s))
    {sink : σ} (h : P sink) (ops : List Operation) : P (performAll restart sink ops) := by
  induction ops generalizing sink with
  | nil => exact h
  | cons op rest ih =>
      have hone : P (perform restart sink op) := by
        cases op with
        | call e => exact hcall sink e h
        -- A template is no more than its calls, by the way it is played.
        | format template args => exact acceptAll_invariant hcall h _
        | clear => exact hrestart sink h
      exact ih hone

end Operation

namespace Region

theorem length_hear (r : Region) (limit : Nat) (terminated : Bool) (e : Event) :
    (r.hear limit terminated e).bytes.length = r.bytes.length := by
  cases e with
  | char c => exact length_putChar r limit c
  | text t => exact length_put r limit t.bytes
  | finish =>
      rw [hear]
      -- The terminator takes the place of a byte and adds none.
      split
      · exact length_terminate r
      · rfl

theorem Fits.rewind {r : Region} {limit : Nat} (h : r.Fits limit) : r.rewind.Fits limit :=
  ⟨Nat.zero_le _, h.limit_le⟩

/-- A property of regions that calls keep, and starting over as well. It may be
    about the limit, which stays. -/
structure Steady (P : Nat → Region → Prop) : Prop where
  hear : ∀ {limit r}, P limit r → ∀ terminated e, P limit (r.hear limit terminated e)
  rewind : ∀ {limit r}, P limit r → P limit r.rewind

/-- Writing a terminator is one of the calls. -/
theorem Steady.terminate {P : Nat → Region → Prop} (hP : Steady P) {limit : Nat} {r : Region}
    (h : P limit r) : P limit r.terminate :=
  hP.hear h true .finish

theorem steady_fits : Steady fun limit r => r.Fits limit :=
  ⟨Fits.hear, Fits.rewind⟩

theorem steady_length (length : Nat) : Steady fun _ r => r.bytes.length = length where
  hear h terminated e := (length_hear _ _ terminated e).trans h
  rewind h := h

end Region

namespace RegionSink

theorem fits_accept {s : RegionSink} (h : s.region.Fits s.limit) (e : Event) :
    (Sink.accept s e).region.Fits (Sink.accept s e).limit := by
  rw [accept_eq_hear]
  exact h.hear s.terminated e

/-- A sink over the given bytes after some operations. -/
def used (bytes : List UInt8) (terminated : Bool) (ops : List Operation) : RegionSink :=
  Operation.performAll clear (withTerminator bytes terminated) ops

theorem used_of_steady {P : Nat → Region → Prop} (hP : Region.Steady P) {bytes : List UInt8}
    {terminated : Bool} (h : P (withTerminator bytes terminated).limit (Region.fresh bytes))
    (ops : List Operation) :
    P (used bytes terminated ops).limit (used bytes terminated ops).region := by
  refine Operation.performAll_invariant (P := fun s : RegionSink => P s.limit s.region) ?_ ?_ h ops
  · intro s e hs
    rw [accept_eq_hear]
    exact hP.hear hs s.terminated e
  · intro s hs
    exact hP.rewind hs

/-- The reserved end does not move. -/
theorem limit_used (bytes : List UInt8) (terminated : Bool) (ops : List Operation) :
    (used bytes terminated ops).limit = if terminated then bytes.length - 1 else bytes.length :=
  used_of_steady
    (P := fun limit _ => limit = if terminated then bytes.length - 1 else bytes.length)
    -- No call is about the limit.
    ⟨fun h _ _ => h, fun h => h⟩ rfl ops

theorem fits_used (bytes : List UInt8) (terminated : Bool) (ops : List Operation) :
    (used bytes terminated ops).region.Fits (used bytes terminated ops).limit :=
  used_of_steady Region.steady_fits (fits_withTerminator bytes terminated) ops

theorem capacity_used (bytes : List UInt8) (terminated : Bool) (ops : List Operation) :
    (used bytes terminated ops).capacity = bytes.length :=
  used_of_steady (Region.steady_length bytes.length) rfl ops

end RegionSink

namespace LineBuffer

variable {capacity : Nat}

/-- A line buffer after some operations. -/
def used (capacity : Nat) (ops : List Operation) : LineBuffer capacity :=
  Operation.performAll clear empty ops

theorem used_of_steady {P : Nat → Region → Prop} (hP : Region.Steady P)
    (h : P (capacity - 1) (empty : LineBuffer capacity).region) (ops : List Operation) :
    P (capacity - 1) (used capacity ops).region := by
  refine Operation.performAll_invariant
    (P := fun b : LineBuffer capacity => P (capacity - 1) b.region) ?_ ?_ h ops
  · intro b e hb
    rw [accept_eq_hear]
    exact hP.hear hb true e
  · intro b hb
    exact hP.terminate (hP.rewind hb)

theorem fits_used (capacity : Nat) (ops : List Operation) :
    (used capacity ops).region.Fits (capacity - 1) :=
  used_of_steady Region.steady_fits fits_empty ops

theorem length_used (capacity : Nat) (ops : List Operation) :
    (used capacity ops).region.bytes.length = capacity :=
  used_of_steady (Region.steady_length capacity) List.length_replicate ops

end LineBuffer

end Stencil
