import Stencil.Proofs.Rendering.Honest
import Stencil.Proofs.Utf8.Replacing
import Stencil.Sink.Trace
import Mathlib.Data.List.TakeWhile

/-!
# Null-Terminated Text, Whatever Its Bytes

A C string comes from outside, so that every list of bytes has to be rendered.
What is sent is the text made of the bytes by substitution of maximal subparts,
which the standard prescribes (`Utf8.Replaced`), and it is sent in passes. A pass
sends the characters up to the next ill-formed stretch and then one replacement;
the last one ends with the bytes.

Every pass takes a byte at least, so there are no more passes than bytes. A
second rendering finds nothing to replace, because what the first one sent is
text without a zero in it.

## Main definitions

* `CString.Passes`: The calls that are made for some bytes, pass by pass.

## Theorems

* `CString.passes_sendSegments`: Sending segments is sending passes.
* `CString.render_replaces`: What is sent for a C string, and what is reported.
-/

namespace Stencil

namespace CString

/-- The calls made for some bytes. The run before an ill-formed stretch is sent
    even if it is empty; the one at the end only if it is not. -/
inductive Passes : List UInt8 → List Event → Prop
  | done : Passes [] []
  | last {t : Text} : t ≠ [] → Passes t.bytes [.text t]
  | damaged (t : Text) {part rest : List UInt8} {events : List Event} :
    Utf8.MaximalSubpart part rest → Passes rest events →
    Passes (t.bytes ++ (part ++ rest)) (.text t :: .char Utf8.replacement :: events)

/-- The bytes in front of the first zero hold none. -/
theorem zero_notMem_content (bytes : List UInt8) : 0 ∉ content bytes := by
  intro h
  have hne := List.mem_takeWhile_imp h
  rw [decide_eq_true_eq] at hne
  exact hne rfl

/-- Bytes without a zero are all in front of the first one. -/
theorem content_eq_self {bytes : List UInt8} (h : 0 ∉ bytes) : content bytes = bytes := by
  refine List.takeWhile_eq_self_iff.mpr (fun b hb => ?_)
  rw [decide_eq_true_eq]
  intro hzero
  rw [hzero] at hb
  exact h hb

/-- Nothing is left out before the first zero, and the rest begins with it. -/
theorem exists_append_content (bytes : List UInt8) :
    ∃ after, bytes = content bytes ++ after ∧ (after = [] ∨ after.head? = some 0) := by
  refine ⟨bytes.dropWhile (· ≠ 0), List.takeWhile_append_dropWhile.symm, ?_⟩
  by_cases hafter : bytes.dropWhile (· ≠ 0) = []
  · exact .inl hafter
  · have hzero := List.head_dropWhile_not (fun b : UInt8 => decide (b ≠ 0)) hafter
    rw [decide_eq_false_iff_not, ne_eq, not_not] at hzero
    exact .inr (by rw [List.head?_eq_some_head hafter, hzero])

/-- Sending segments is sending passes, by induction on what is made of the
    bytes. The run in hand stands in front of them. -/
theorem passes_sendSegments {bytes : List UInt8} {t : Text} (h : Utf8.Replaced bytes t)
    (run : Text) :
    Passes (Text.bytes run.reverse ++ bytes) (sendSegments run (Utf8.segments bytes)).events := by
  induction h generalizing run with
  -- At the end the run is sent, unless there is none.
  | nil =>
      rw [List.append_nil]
      cases run with
      | nil => exact .done
      | cons c run =>
          refine .last ?_
          rw [ne_eq, List.reverse_eq_nil_iff]
          exact List.cons_ne_nil c run
  | character c _ ih =>
      -- The character joins the run.
      have hpass := ih (c :: run)
      rw [List.reverse_cons, Text.bytes_append, Text.bytes_cons, Text.bytes_nil, List.append_nil,
        List.append_assoc] at hpass
      rw [Utf8.segments_utf8EncodeChar_append]
      exact hpass
  | subpart hpart _ ih =>
      rw [Utf8.segments_subpart hpart]
      exact .damaged run.reverse hpart (ih [])

theorem passes_render (bytes : List UInt8) (spec : Text) :
    Passes (content bytes) (render bytes spec).events :=
  passes_sendSegments (Utf8.replaced_lossy (content bytes)) []

/-- A text in front of bytes is taken over as it is. -/
theorem replaced_append {bytes : List UInt8} {t : Text} (s : Text) (h : Utf8.Replaced bytes t) :
    Utf8.Replaced (s.bytes ++ bytes) (s ++ t) := by
  induction s with
  | nil => exact h
  | cons c s ih =>
      rw [Text.bytes_cons, List.append_assoc]
      exact .character c ih

/-- What the passes send is what is made of the bytes. -/
theorem Passes.replaced {bytes : List UInt8} {events : List Event} (h : Passes bytes events) :
    Utf8.Replaced bytes (events.flatMap Event.content) := by
  induction h with
  | done => exact .nil
  | @last t _ =>
      have htext := replaced_append t .nil
      rw [List.append_nil] at htext
      exact htext
  | damaged t hpart _ ih => exact replaced_append t (.subpart hpart ih)

/-- A pass makes two calls at most and takes a byte at least. -/
theorem Passes.length_le {bytes : List UInt8} {events : List Event} (h : Passes bytes events) :
    events.length ≤ 2 * bytes.length := by
  induction h with
  | done => exact Nat.zero_le _
  | @last t hne =>
      -- The run that is sent has a character, and this has a byte.
      rcases List.exists_cons_of_ne_nil hne with ⟨c, t, rfl⟩
      have hsize := c.utf8Size_pos
      rw [Text.bytes_cons, List.length_append, String.length_utf8EncodeChar, List.length_singleton]
      omega
  | damaged t hpart _ ih =>
      -- The two calls are for the byte at least that is replaced.
      have hpos := List.length_pos_iff.mpr hpart.nonempty
      rw [List.length_cons, List.length_cons, List.length_append, List.length_append]
      omega

theorem content_render (bytes : List UInt8) (spec : Text) :
    (render bytes spec).content = Utf8.lossy (content bytes) :=
  (Utf8.replaced_iff.mp (passes_render bytes spec).replaced).symm

/-- What a C string sends is what substitution of maximal subparts makes of the
    bytes in front of the first zero, where the sequences taken over are those of
    the table of well-formed ones. It is sent in passes, no more than there are
    bytes, which are the calls that a sink hears, and its length in bytes is reported.
    Text is sent unchanged, and so is what was sent before. -/
theorem render_replaces (bytes : List UInt8) (spec : Text) :
    (∃ after, bytes = content bytes ++ after ∧ (after = [] ∨ after.head? = some 0)) ∧
    0 ∉ content bytes ∧
    (∀ sequence, Utf8.WellFormed sequence ↔ ∃ c, String.utf8EncodeChar c = sequence) ∧
    (∀ t, Utf8.Replaced (content bytes) t ↔ (render bytes spec).content = t) ∧
    Passes (content bytes) (render bytes spec).events ∧
    (render bytes spec).events.length ≤ 2 * (content bytes).length ∧
    (render bytes spec).outcome = .ok (Text.count (render bytes spec).content) ∧
    (∀ t : Text, content bytes = t.bytes → (render bytes spec).content = t) ∧
    (∀ again, (render (render bytes spec).content.bytes again).content =
      (render bytes spec).content) ∧
    heard (fun trace => (render bytes spec).into trace) = (render bytes spec).events ∧
    received (fun trace => (render bytes spec).into trace) = (render bytes spec).content := by
  have hpasses := passes_render bytes spec
  refine ⟨exists_append_content bytes, zero_notMem_content bytes, fun _ => Utf8.wellFormed_iff,
    fun t => ?_, hpasses, hpasses.length_le, (clean_render bytes spec).outcome_eq,
    fun t ht => ?_, fun again => ?_, heard_into _, received_into _⟩
  · rw [content_render]
    exact Utf8.replaced_iff
  · rw [content_render, ht, Utf8.lossy_bytes]
  · -- No zero cuts the second rendering short.
    have hzero := Utf8.zero_mem_bytes_lossy (zero_notMem_content bytes)
    rw [content_render, content_render, content_eq_self hzero, Utf8.lossy_bytes]

end CString

end Stencil
