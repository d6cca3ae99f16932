import Stencil.Rendering

/-!
# Renderings in Order

What a list of renderings does when they are played one after the other, said
at once and not step by step: everything up to and including the first that
fails takes place, and nothing after it. The sequence ends with the error of
that one. If none fails it ends with the sum of their counts, capped once.

`Rendering.concat` adds up as it goes and stops as it goes. `concat_eq_inOrder`
says that the result is the same, the cap included: capping every partial sum
is capping the sum.

## Main definitions

* `Rendering.failure`: The error that a rendering ends with, if it fails.
* `Rendering.produced`: The number of bytes that a rendering reports.
* `Rendering.inOrder`: A list of renderings up to the first that fails.

## Theorems

* `Rendering.concat_append`: Sequencing two lists is sequencing their sequences.
* `Rendering.concat_texts`: Runs in a row are the calls for them, and their length.
* `Rendering.concat_eq_inOrder`: Sequencing stops at the first failure.
-/

namespace Stencil

namespace Rendering

/-- The error that a rendering ends with, if it does. -/
def failure (r : Rendering) : Option FormatError :=
  match r.outcome with
  | .ok _ => none
  | .error e => some e

/-- The number of bytes that a rendering reports. A failure reports none. -/
def produced (r : Rendering) : Nat :=
  match r.outcome with
  | .ok n => n.toNat
  | .error _ => 0

/-- The bytes reported by renderings together. -/
def totalProduced : List Rendering → Nat
  | [] => 0
  | r :: rest => r.produced + totalProduced rest

/-- The calls of all renderings up to and including the first that fails, and
    its error or else the capped sum of what they report. -/
def inOrder (rs : List Rendering) : Rendering where
  events := (rs.take (rs.findIdx (fun r => r.failure.isSome) + 1)).flatMap Rendering.events
  outcome :=
    match rs.findSome? failure with
    | some e => .error e
    | none => .ok (Count.ofNat (totalProduced rs))

theorem concat_append (rs ss : List Rendering) :
    concat (rs ++ ss) = (concat rs).andThen (concat ss) := by
  induction rs with
  | nil => exact (done_andThen _).symm
  | cons r rest ih => rw [List.cons_append, concat, concat, ih, andThen_assoc]

/-- Runs sent one by one are sent in order. -/
theorem flatMap_texts (ts : List Text) :
    (ts.map Event.text).flatMap Event.content = ts.flatten := by
  rw [List.flatMap_map]
  exact List.flatMap_id

/-- Sending runs one by one reports the length of all of them. -/
theorem concat_texts (ts : List Text) :
    concat (ts.map text) = ⟨ts.map Event.text, .ok (Text.count ts.flatten)⟩ := by
  induction ts with
  | nil => rfl
  | cons t ts ih =>
      rw [List.map_cons, concat, ih, andThen_of_ok rfl]
      simp only [text, Except.map, List.map_cons, List.flatten_cons, Text.count,
        Text.byteLength_append, Count.ofNat_add, List.singleton_append]

/-- If the first fails it is the only one. -/
theorem inOrder_cons_of_error {r : Rendering} {e : FormatError} (h : r.outcome = .error e)
    (rest : List Rendering) : inOrder (r :: rest) = r := by
  rcases r with ⟨events, outcome⟩
  simp only at h
  simp only [inOrder, failure, h, List.findIdx_cons, Option.isSome_some, cond_true,
    Nat.zero_add, List.take_succ_cons, List.take_zero, List.flatMap_cons, List.flatMap_nil,
    List.append_nil, List.findSome?_cons]

/-- If the first succeeds the others take place behind it, and its count is added to
    theirs. -/
theorem inOrder_cons_of_ok {r : Rendering} {m : Count} (h : r.outcome = .ok m)
    (rest : List Rendering) :
    inOrder (r :: rest) =
      ⟨r.events ++ (inOrder rest).events, (inOrder rest).outcome.map (m + ·)⟩ := by
  -- A success is not the first failure, so the search goes on behind it.
  have hfail : r.failure = none := by simp only [failure, h]
  have hprod : r.produced = m.toNat := by simp only [produced, h]
  simp only [inOrder, List.findIdx_cons, hfail, Option.isSome_none, cond_false,
    List.take_succ_cons, List.flatMap_cons, List.findSome?_cons, totalProduced, hprod]
  cases rest.findSome? failure with
  | some e => rfl
  | none =>
      -- Capping the sum behind it and then the whole is capping once.
      simp only [Except.map, Count.ofNat_add, Count.ofNat_toNat]

/-- Sequencing carries out everything up to the first failure and nothing
    behind it, and reports the sum. -/
theorem concat_eq_inOrder (rs : List Rendering) : concat rs = inOrder rs := by
  induction rs with
  | nil => rfl
  | cons r rest ih =>
      rw [concat, ih]
      cases h : r.outcome with
      | error e => rw [andThen_of_error h, inOrder_cons_of_error h]
      | ok m => rw [andThen_of_ok h, inOrder_cons_of_ok h]

end Rendering

end Stencil
