import Mathlib.Data.List.Induction
import Mathlib.Tactic.ByContra
import Stencil.Proofs.Sink.Operations

/-!
# What Stands Behind the Cursor

A region lent to a sink comes back with the written bytes in front of the
cursor and, from the cursor on, the bytes that were lent. There is one exception,
the terminator. It stands at the cursor when the output was completed and the
cursor has not moved since.

One call is enough to see why. A write that moves the cursor puts its bytes over
a terminator, if there is one, since the terminator is the first byte behind the
cursor. A write that stores nothing leaves it where it is. So whether there is a
terminator depends on the calls behind the last one that moved the cursor.

## Main definitions

* `Region.Shows`: What a region shows of the bytes that were lent.
* `RegionSink.Completed`: The output was completed where the cursor is now.

## Theorems

* `Region.Shows.put`, `Region.Shows.terminate`: What a write leaves behind it.
* `RegionSink.completed_concat`: A write that moves the cursor ends completion.
* `RegionSink.shows_concat`, `RegionSink.shows_acceptAll`: A region under calls
  shows what was lent.
* `keepAll_ignores_finish`: Completing the output does not change what is kept.
* `RegionSink.region_exact`: The whole region after any operations.
-/

namespace Stencil

namespace Region

variable {r : Region} {limit : Nat} {original : List UInt8}

/-- A region shows the lent bytes from its cursor on, the first of them replaced
    by a zero if it is closed. -/
structure Shows (original : List UInt8) (closed : Prop) (r : Region) : Prop where
  of_closed : closed → r.bytes = r.written ++ (original.drop r.cursor).set 0 0
  of_open : ¬ closed → r.bytes = r.written ++ original.drop r.cursor

/-- Past the byte at the cursor nothing was ever replaced. -/
theorem Shows.drop_of_lt {closed : Prop} (h : r.Shows original closed) (hr : r.Fits limit)
    {n : Nat} (hn : r.cursor < n) : r.bytes.drop n = original.drop n := by
  have hbehind : ∀ tail : List UInt8, (r.written ++ tail).drop n = tail.drop (n - r.cursor) := by
    intro tail
    -- The written bytes end at the cursor, so all of them are dropped.
    have hlength := hr.length_written
    rw [List.drop_append, List.drop_of_length_le (by omega), List.nil_append, hlength]
  have hsum : r.cursor + (n - r.cursor) = n := by omega
  by_cases hclosed : closed
  · rw [h.of_closed hclosed, hbehind, List.drop_set, if_pos (by omega), List.drop_drop, hsum]
  · rw [h.of_open hclosed, hbehind, List.drop_drop, hsum]

/-- A write leaves the bytes behind its end as they were. -/
theorem bytes_put (hr : r.Fits limit) (new : List UInt8) :
    (r.put limit new).bytes =
      (r.put limit new).written ++ r.bytes.drop (r.put limit new).cursor := by
  have hroom : (new.take (limit - r.cursor)).length ≤ r.bytes.length - r.cursor := by
    have hlimit := hr.limit_le
    rw [List.length_take]
    omega
  rw [written_put hr]
  simp only [put, overwrite, written]
  rw [List.take_of_length_le hroom]

theorem cursor_le_put (r : Region) (limit : Nat) (new : List UInt8) :
    r.cursor ≤ (r.put limit new).cursor :=
  Nat.le_add_right _ _

/-- A write leaves the region open if it moves the cursor, and as it was if it does
    not. -/
theorem Shows.put {closed : Prop} (h : r.Shows original closed) (hr : r.Fits limit)
    (new : List UInt8) :
    (r.put limit new).Shows original (closed ∧ (r.put limit new).cursor = r.cursor) := by
  have hbytes := bytes_put hr new
  by_cases hmoved : (r.put limit new).cursor = r.cursor
  · -- Nothing was stored, so the region is what it was.
    have hnone : new.take (limit - r.cursor) = [] := by
      simp only [Region.put] at hmoved
      exact List.length_eq_zero_iff.mp (by omega)
    have hsame : r.put limit new = r := by
      simp only [Region.put, hnone, overwrite, List.take_nil, List.append_nil, List.length_nil,
        Nat.add_zero, List.take_append_drop]
    rw [hsame]
    exact ⟨fun hc => h.of_closed hc.1, fun hc => h.of_open (fun hclosed => hc ⟨hclosed, rfl⟩)⟩
  -- The write went over the byte at the cursor, and behind it the lent bytes are as they
  -- were.
  · have hlt : r.cursor < (r.put limit new).cursor := by
      have hle := cursor_le_put r limit new
      omega
    rw [h.drop_of_lt hr hlt] at hbytes
    exact ⟨fun hc => absurd hc.2 hmoved, fun _ => hbytes⟩

theorem Shows.putChar {closed : Prop} (h : r.Shows original closed) (hr : r.Fits limit)
    (c : Char) :
    (r.putChar limit c).Shows original (closed ∧ (r.putChar limit c).cursor = r.cursor) := by
  rw [Region.putChar]
  by_cases hroom : c.utf8Size ≤ limit - r.cursor
  · rw [if_pos hroom]
    exact h.put hr _
  · rw [if_neg hroom]
    exact ⟨fun hc => h.of_closed hc.1, fun hc => h.of_open (fun hclosed => hc ⟨hclosed, rfl⟩)⟩

/-- A terminator closes the region, closed or not before. -/
theorem Shows.terminate {closed : Prop} (h : r.Shows original closed) (hr : r.Fits limit) :
    r.terminate.Shows original True := by
  refine ⟨fun _ => ?_, fun hopen => absurd trivial hopen⟩
  have hlength := hr.length_written
  rw [written_terminate]
  simp only [Region.terminate]
  -- The byte at the cursor is the first of those behind the written ones.
  by_cases hclosed : closed
  · rw [h.of_closed hclosed, List.set_append_right _ _ (by omega), hlength, Nat.sub_self,
      List.set_set]
  · rw [h.of_open hclosed, List.set_append_right _ _ (by omega), hlength, Nat.sub_self]

/-- No call moves the cursor back. -/
theorem cursor_le_hear (r : Region) (limit : Nat) (terminated : Bool) (e : Event) :
    r.cursor ≤ (r.hear limit terminated e).cursor := by
  cases e with
  | char c =>
      rw [hear, Region.putChar]
      split
      · exact cursor_le_put r limit _
      · exact Nat.le_refl _
  | text t => exact cursor_le_put r limit _
  | finish =>
      rw [hear]
      split
      · exact Nat.le_refl _
      · exact Nat.le_refl _

end Region

/-- Completing the output does not change what is kept, then or later. -/
theorem keepAll_ignores_finish (limit : Nat) (kept : List UInt8) (es : List Event) :
    keepAll limit kept (es.filter (· ≠ .finish)) = keepAll limit kept es := by
  induction es generalizing kept with
  | nil => rfl
  | cons e rest ih =>
      -- The notice is left out of the calls, and keeps what it finds.
      by_cases he : e = .finish
      · rw [List.filter_cons_of_neg (by simp [he]), ih, keepAll_cons, he, keep]
      · rw [List.filter_cons_of_pos (by simp [he]), keepAll_cons, keepAll_cons, ih]

namespace RegionSink

theorem size_le_accept (s : RegionSink) (e : Event) : s.size ≤ (Sink.accept s e).size := by
  rw [accept_eq_hear]
  exact Region.cursor_le_hear _ _ _ e

theorem size_le_acceptAll (s : RegionSink) (es : List Event) :
    s.size ≤ (Sink.acceptAll s es).size := by
  induction es generalizing s with
  | nil => exact Nat.le_refl _
  | cons e rest ih => exact Nat.le_trans (size_le_accept s e) (ih _)

/-- The output was completed at the place where the cursor stands after the
    calls. The cursor never moves back, so it has not moved since. -/
def Completed (start : RegionSink) (es : List Event) : Prop :=
  ∃ before after, es = before ++ .finish :: after ∧
    (Sink.acceptAll start before).size = (Sink.acceptAll start es).size

theorem not_completed_nil (start : RegionSink) : ¬ Completed start [] := by
  rintro ⟨before, after, hsplit, -⟩
  exact absurd hsplit.symm (List.append_ne_nil_of_right_ne_nil _ (List.cons_ne_nil _ _))

theorem acceptAll_concat (s : RegionSink) (es : List Event) (e : Event) :
    Sink.acceptAll s (es ++ [e]) = Sink.accept (Sink.acceptAll s es) e :=
  Sink.acceptAll_append s es [e]

theorem completed_concat_finish (start : RegionSink) (es : List Event) :
    Completed start (es ++ [.finish]) := by
  refine ⟨es, [], rfl, ?_⟩
  rw [acceptAll_concat, accept_eq_hear]
  -- A terminator is written at the cursor, which stays in front of it.
  simp only [size, Region.hear]
  split <;> rfl

/-- A write that moves the cursor ends completion, and no other write does. -/
theorem completed_concat {start : RegionSink} {es : List Event} {e : Event} (he : e ≠ .finish) :
    Completed start (es ++ [e]) ↔
      Completed start es ∧
        (Sink.acceptAll start (es ++ [e])).size = (Sink.acceptAll start es).size := by
  constructor
  · rintro ⟨before, after, hsplit, hsize⟩
    -- The last call is a write, so the completion is one of those before it.
    rcases List.eq_nil_or_concat after with rfl | ⟨after, last, rfl⟩
    · exact absurd (List.append_inj_right' hsplit rfl) (by simpa using he)
    · rw [List.concat_eq_append, ← List.cons_append, ← List.append_assoc] at hsplit
      rcases List.append_inj' hsplit rfl with ⟨hfront, -⟩
      -- The cursor was at least there then, and is no further now.
      have hstays : (Sink.acceptAll start before).size ≤ (Sink.acceptAll start es).size := by
        rw [hfront, Sink.acceptAll_append]
        exact size_le_acceptAll _ _
      have hmoves := size_le_accept (Sink.acceptAll start es) e
      rw [← acceptAll_concat] at hmoves
      exact ⟨⟨before, after, hfront, by omega⟩, by omega⟩
  · rintro ⟨⟨before, after, hsplit, hsize⟩, hsame⟩
    exact ⟨before, after ++ [e], by rw [hsplit, List.append_assoc, List.cons_append],
      by rw [hsize, hsame]⟩

theorem fits_acceptAll (bytes : List UInt8) (terminated : Bool) (es : List Event) :
    (Sink.acceptAll (withTerminator bytes terminated) es).region.Fits
      (Sink.acceptAll (withTerminator bytes terminated) es).limit :=
  Operation.acceptAll_invariant (P := fun s : RegionSink => s.region.Fits s.limit)
    (fun _ e h => fits_accept h e) (fits_withTerminator bytes terminated) es

/-- One more call keeps what the region shows. -/
theorem shows_concat {bytes : List UInt8} {terminated : Bool} {es : List Event}
    (h : (Sink.acceptAll (withTerminator bytes terminated) es).region.Shows bytes
      (terminated = true ∧ Completed (withTerminator bytes terminated) es)) (e : Event) :
    (Sink.acceptAll (withTerminator bytes terminated) (es ++ [e])).region.Shows bytes
      (terminated = true ∧ Completed (withTerminator bytes terminated) (es ++ [e])) := by
  have hfits := fits_acceptAll bytes terminated es
  cases e with
  | char c =>
      -- A write closes nothing, and opens what it moves the cursor away from.
      rw [completed_concat (by simp), ← and_assoc, acceptAll_concat, accept_eq_hear]
      exact h.putChar hfits c
  | text t =>
      rw [completed_concat (by simp), ← and_assoc, acceptAll_concat, accept_eq_hear]
      exact h.put hfits t.bytes
  | finish =>
      have hcompleted := completed_concat_finish (withTerminator bytes terminated) es
      -- Whether a terminator is written is a matter of the sink, which calls do not
      -- change.
      have hflag : (Sink.acceptAll (withTerminator bytes terminated) es).terminated =
          terminated := by
        rw [acceptAll_eq_hear]
        rfl
      rw [acceptAll_concat, accept_eq_hear, Region.hear, hflag]
      cases terminated with
      | false =>
          -- A sink without a terminator never closes its region.
          have hopen := h.of_open (by simp)
          exact ⟨fun hclosed => absurd hclosed.1 (by simp), fun _ => hopen⟩
      | true =>
          -- The terminator is written at the cursor, where completion is now.
          have hclosed := (h.terminate hfits).of_closed trivial
          exact ⟨fun _ => hclosed, fun hopen => absurd ⟨rfl, hcompleted⟩ hopen⟩

/-- A region under calls shows the lent bytes behind its cursor, by induction on
    the number of calls. -/
theorem shows_acceptAll (bytes : List UInt8) (terminated : Bool) (es : List Event) :
    (Sink.acceptAll (withTerminator bytes terminated) es).region.Shows bytes
      (terminated = true ∧ Completed (withTerminator bytes terminated) es) := by
  induction es using List.reverseRecOn with
  | nil =>
      -- Before the first call the region is the lent one, and there was no completion.
      have hnot : ¬ Completed (withTerminator bytes terminated) [] := not_completed_nil _
      exact ⟨fun h => absurd h.2 hnot, fun _ => rfl⟩
  | append_singleton es e ih => exact shows_concat ih e

theorem used_eq_acceptAll (bytes : List UInt8) (terminated : Bool) {ops : List Operation}
    (h : .clear ∉ ops) :
    used bytes terminated ops =
      Sink.acceptAll (withTerminator bytes terminated) (Operation.allCalls ops) :=
  Operation.performAll_of_no_clear clear _ h

/-- A region lent to a sink, after any operations but starting over. The cursor is
    not past the reserved end. In front of it are the written bytes, and from it
    on the bytes that were lent, except that a terminator stands at the cursor if
    the output was completed there. What is written, then and later, is the same
    as without the completions. Every point inside a template is such a point as
    well, a template being nothing but calls. -/
theorem region_exact (bytes : List UInt8) (terminated : Bool) (ops : List Operation)
    (hops : .clear ∉ ops) :
    (used bytes terminated ops).size ≤
        (if terminated then bytes.length - 1 else bytes.length) ∧
      (terminated = true ∧ 1 ≤ bytes.length ∧
          Completed (withTerminator bytes terminated) (Operation.allCalls ops) →
        (used bytes terminated ops).region.bytes =
          (used bytes terminated ops).bytes ++
            0 :: bytes.drop ((used bytes terminated ops).size + 1)) ∧
      (¬ (terminated = true ∧ 1 ≤ bytes.length ∧
          Completed (withTerminator bytes terminated) (Operation.allCalls ops)) →
        (used bytes terminated ops).region.bytes =
          (used bytes terminated ops).bytes ++ bytes.drop (used bytes terminated ops).size) ∧
      (used bytes terminated ops).bytes =
        (Sink.acceptAll (withTerminator bytes terminated)
          ((Operation.allCalls ops).filter (· ≠ .finish))).bytes ∧
      (used bytes terminated ops).size =
        (Sink.acceptAll (withTerminator bytes terminated)
          ((Operation.allCalls ops).filter (· ≠ .finish))).size := by
  rw [used_eq_acceptAll bytes terminated hops]
  generalize Operation.allCalls ops = es
  have hfits := fits_acceptAll bytes terminated es
  have hshows := shows_acceptAll bytes terminated es
  -- Both are what is kept of the calls, and completions do not count there.
  have hkept : (Sink.acceptAll (withTerminator bytes terminated) es).bytes =
      (Sink.acceptAll (withTerminator bytes terminated) (es.filter (· ≠ .finish))).bytes := by
    rw [bytes_withTerminator, bytes_withTerminator, keepAll_ignores_finish]
  have hlimit : (Sink.acceptAll (withTerminator bytes terminated) es).limit =
      if terminated then bytes.length - 1 else bytes.length := by
    rw [acceptAll_eq_hear]
    rfl
  have hsize := hfits.cursor_le
  rw [hlimit] at hsize
  refine ⟨hsize, ?_, ?_, hkept, ?_⟩
  · rintro ⟨hflag, hlength, hcompleted⟩
    rw [if_pos hflag] at hsize
    -- The cursor is in front of the reserved byte, so there is a byte at it.
    have hlt : (Sink.acceptAll (withTerminator bytes terminated) es).region.cursor <
        bytes.length := by omega
    have hregion := hshows.of_closed ⟨hflag, hcompleted⟩
    rw [List.drop_eq_getElem_cons hlt, List.set_cons_zero] at hregion
    exact hregion
  · intro hopen
    by_cases hclosed : terminated = true ∧ Completed (withTerminator bytes terminated) es
    · -- Completion without a byte for the terminator leaves nothing to close.
      have hempty : bytes = [] := by
        by_contra hne
        exact hopen ⟨hclosed.1, List.length_pos_iff.mpr hne, hclosed.2⟩
      have hregion := hshows.of_closed hclosed
      rw [hempty, List.drop_nil, List.set_nil] at hregion
      rw [hempty, List.drop_nil]
      exact hregion
    · exact hshows.of_open hclosed
  -- As many bytes are written as the cursor says.
  · have hlength := hfits.length_written
    have hlength' := (fits_acceptAll bytes terminated (es.filter (· ≠ .finish))).length_written
    rw [size, size, ← hlength, ← hlength']
    exact congrArg List.length hkept

/-- A terminator is written over when more is stored, and another one written
    behind it. -/
theorem region_exact_twice :
    Operation.clear ∉ [Operation.call (.char 'a'), .call .finish, .call (.char 'b'),
        .call .finish] ∧
      (used [7, 7, 7, 7] true [.call (.char 'a'), .call .finish, .call (.char 'b'),
        .call .finish]).region.bytes = [97, 98] ++ 0 :: [7] := by
  have hops : Operation.clear ∉ [Operation.call (.char 'a'), .call .finish, .call (.char 'b'),
      .call .finish] := by simp
  refine ⟨hops, ?_⟩
  exact (region_exact [7, 7, 7, 7] true _ hops).2.1 ⟨rfl, by decide,
    [.char 'a', .finish, .char 'b'], [], rfl, by decide⟩

end RegionSink

end Stencil
