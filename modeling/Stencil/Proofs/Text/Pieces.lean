import Mathlib.Data.List.DropRight
import Mathlib.Data.List.Infix
import Stencil.Text.Blank
import Stencil.Text.Lines

/-!
# Pieces of a Text

A text is cut at the first place where a marker stands, and blanks are taken off
its ends. Both are done by going over the text. Here the pieces are described by
how the text is put together from them, and each description fits one cut only.

A piece in front of a marker never has the marker in it, as it would stand there
earlier. It may have the beginning of a marker at its end.

## Main definitions

* `Text.FirstAt`: A text cut where a marker stands first.
* `Text.UpTo`: What precedes the marker, or all of a text without it.
* `Text.Trimmed`: A text without the blanks at its ends.

## Theorems

* `Text.cut?_eq_some_iff`, `Text.cut?_eq_none_iff`: Cutting finds the first marker.
* `Text.upTo_iff`, `Text.trimmed_iff`: The descriptions fit what is computed.
* `Text.not_infix_upTo`: No marker is left in front of the first.
-/

namespace Stencil

namespace Text

/-- A marker stands between two pieces of a text, and nowhere further to the left. -/
structure FirstAt (marker t before after : Text) : Prop where
  whole : t = before ++ (marker ++ after)
  first : ∀ front back, t = front ++ (marker ++ back) → before.length ≤ front.length

/-- What precedes a marker, or all of a text that does not have it. -/
def UpTo (marker t piece : Text) : Prop :=
  (∃ after, FirstAt marker t piece after) ∨ (¬ marker <:+: t ∧ piece = t)

/-- A text is another one with blanks in front and behind, and has none of its own at
    its ends. -/
def Trimmed (t s : Text) : Prop :=
  ∃ front back, t = front ++ (s ++ back) ∧ (∀ c ∈ front, isBlank c = true) ∧
    (∀ c ∈ back, isBlank c = true) ∧ (∀ c, s.head? = some c → isBlank c = false) ∧
    ∀ c, s.getLast? = some c → isBlank c = false

section Markers

variable {marker t : Text}

theorem FirstAt.occurs {before after : Text} (h : FirstAt marker t before after) :
    marker <:+: t :=
  ⟨before, after, by rw [h.whole, List.append_assoc]⟩

/-- There is one first place. -/
theorem FirstAt.unique {before after before' after' : Text} (h : FirstAt marker t before after)
    (h' : FirstAt marker t before' after') : before = before' ∧ after = after' := by
  have hlength : before.length = before'.length :=
    Nat.le_antisymm (h.first _ _ h'.whole) (h'.first _ _ h.whole)
  rcases List.append_inj (h.whole.symm.trans h'.whole) hlength with ⟨hbefore, hrest⟩
  exact ⟨hbefore, List.append_cancel_left hrest⟩

/-- A first place stays the first when a character is put in front that begins no
    marker. -/
theorem FirstAt.cons {c : Char} {before after : Text} (h : FirstAt marker t before after)
    (hc : ¬ marker <+: c :: t) : FirstAt marker (c :: t) (c :: before) after := by
  refine ⟨by rw [h.whole, List.cons_append], ?_⟩
  intro front back hwhole
  cases front with
  | nil => exact absurd ⟨back, hwhole.symm⟩ hc
  | cons d front =>
      rw [List.cons_append, List.cons.injEq] at hwhole
      exact Nat.succ_le_succ (h.first front back hwhole.2)

theorem firstAt_start (h : marker <+: t) : FirstAt marker t [] (t.drop marker.length) :=
  ⟨(List.prefix_iff_eq_append.mp h).symm, fun _ _ _ => Nat.zero_le _⟩

/-- Cutting finds the first marker, by induction on the text. -/
theorem cut?_cases (marker t : Text) :
    (∃ before after, cut? marker t = some (before, after) ∧ FirstAt marker t before after) ∨
      (cut? marker t = none ∧ ¬ marker <:+: t) := by
  induction t with
  | nil =>
      cases marker with
      | nil => exact .inl ⟨[], [], rfl, rfl, fun _ _ _ => Nat.zero_le _⟩
      | cons c marker => exact .inr ⟨rfl, by simp⟩
  | cons c t ih =>
      rw [cut?]
      -- The marker is in front, or the first one of the rest is the first of all.
      by_cases hstarts : marker <+: c :: t
      · rw [if_pos (List.isPrefixOf_iff_prefix.mpr hstarts)]
        exact .inl ⟨_, _, rfl, firstAt_start hstarts⟩
      · rw [if_neg (fun h => hstarts (List.isPrefixOf_iff_prefix.mp h))]
        rcases ih with ⟨before, after, hcut, hfirst⟩ | ⟨hcut, hnone⟩
        · exact .inl ⟨c :: before, after, by rw [hcut]; rfl, hfirst.cons hstarts⟩
        · refine .inr ⟨by rw [hcut]; rfl, ?_⟩
          rw [List.infix_cons_iff, not_or]
          exact ⟨hstarts, hnone⟩

theorem cut?_eq_none_iff : cut? marker t = none ↔ ¬ marker <:+: t := by
  rcases cut?_cases marker t with ⟨before, after, hcut, hfirst⟩ | ⟨hcut, hnone⟩
  · rw [hcut]
    exact iff_of_false (by simp) (not_not_intro hfirst.occurs)
  · exact iff_of_true hcut hnone

theorem cut?_eq_some_iff {before after : Text} :
    cut? marker t = some (before, after) ↔ FirstAt marker t before after := by
  rcases cut?_cases marker t with ⟨before', after', hcut, hfirst⟩ | ⟨hcut, hnone⟩
  · rw [hcut, Option.some.injEq, Prod.mk.injEq]
    refine ⟨?_, fun h => hfirst.unique h⟩
    rintro ⟨rfl, rfl⟩
    exact hfirst
  · rw [hcut]
    exact iff_of_false (by simp) (fun h => hnone h.occurs)

/-- What precedes the marker is one piece, as there is one first place or none. -/
theorem upTo_iff {piece : Text} : UpTo marker t piece ↔ upTo marker t = piece := by
  unfold UpTo upTo
  rcases cut?_cases marker t with ⟨before, after, hcut, hfirst⟩ | ⟨hcut, hnone⟩
  · rw [hcut, Option.map_some, Option.getD_some]
    refine ⟨?_, ?_⟩
    · rintro (⟨after', hfirst'⟩ | ⟨hnone, -⟩)
      · exact (hfirst.unique hfirst').1
      · exact absurd hfirst.occurs hnone
    · rintro rfl
      exact .inl ⟨after, hfirst⟩
  · rw [hcut, Option.map_none, Option.getD_none]
    refine ⟨?_, fun h => .inr ⟨hnone, h.symm⟩⟩
    rintro (⟨after, hfirst⟩ | ⟨-, hpiece⟩)
    · exact absurd hfirst.occurs hnone
    · exact hpiece.symm

theorem upTo_isPrefix (marker t : Text) : upTo marker t <+: t := by
  rcases upTo_iff.mpr (rfl : upTo marker t = upTo marker t) with ⟨after, hfirst⟩ | ⟨-, hall⟩
  · exact ⟨marker ++ after, hfirst.whole.symm⟩
  · rw [hall]

/-- A marker in front of the first one would be the first. -/
theorem not_infix_upTo (hmarker : marker ≠ []) (t : Text) : ¬ marker <:+: upTo marker t := by
  rcases upTo_iff.mpr (rfl : upTo marker t = upTo marker t) with ⟨after, hfirst⟩ | ⟨hnone, hall⟩
  · rintro ⟨front, back, hpiece⟩
    -- The place within the piece would be in front of the first one.
    have hearlier := hfirst.first front (back ++ (marker ++ after)) (by
      rw [hfirst.whole, ← hpiece]
      simp)
    have hlength := congrArg List.length hpiece
    have hpos := List.length_pos_iff.mpr hmarker
    rw [List.length_append, List.length_append] at hlength
    omega
  · rw [hall]
    exact hnone

/-- A character that is not in the marker completes none. -/
theorem cut?_concat {c : Char} (hmarker : marker ≠ []) (hc : c ∉ marker) (t : Text) :
    cut? marker (t ++ [c]) = (cut? marker t).map fun parts => (parts.1, parts.2 ++ [c]) := by
  have hstarts : ∀ s : Text, marker <+: s ++ [c] ↔ marker <+: s := by
    intro s
    rw [List.prefix_concat_iff]
    refine or_iff_right ?_
    intro heq
    exact hc (by rw [heq]; simp)
  induction t with
  | nil =>
      -- A marker in this text would begin with the character, or be empty.
      have hnone : ¬ marker <:+: [c] := by
        rw [List.infix_cons_iff, not_or]
        refine ⟨fun h => hmarker (List.prefix_nil.mp ((hstarts []).mp h)), ?_⟩
        exact fun h => hmarker (List.infix_nil.mp h)
      rw [List.nil_append, cut?_eq_none_iff.mpr hnone,
        cut?_eq_none_iff.mpr (fun h => hmarker (List.infix_nil.mp h))]
      rfl
  | cons d t ih =>
      have hsame := hstarts (d :: t)
      rw [List.cons_append] at hsame ⊢
      rw [cut?, cut?]
      -- The new character does not decide whether the marker is in front.
      by_cases h : marker <+: d :: t
      · rw [if_pos (List.isPrefixOf_iff_prefix.mpr (hsame.mpr h)),
          if_pos (List.isPrefixOf_iff_prefix.mpr h), Option.map_some, ← List.cons_append,
          List.drop_append_of_le_length h.length_le]
      · rw [if_neg (fun hp => h (hsame.mp (List.isPrefixOf_iff_prefix.mp hp))),
          if_neg (fun hp => h (List.isPrefixOf_iff_prefix.mp hp)), ih, Option.map_map,
          Option.map_map]
        rfl

end Markers

theorem trim_eq_rdropWhile (t : Text) : t.trim = (t.dropWhile isBlank).rdropWhile isBlank := rfl

/-- Blanks in front are dropped, and nothing behind them that begins with no blank. -/
theorem dropWhile_blanks {front s : Text} (hfront : ∀ c ∈ front, isBlank c = true)
    (hs : ∀ c, s.head? = some c → isBlank c = false) : (front ++ s).dropWhile isBlank = s := by
  rw [List.dropWhile_append_of_pos hfront]
  cases s with
  | nil => rfl
  | cons c s => rw [List.dropWhile_cons_of_neg (by rw [hs c rfl]; exact Bool.false_ne_true)]

/-- Trimming drops the blanks in front first, and then those behind from the other
    side. -/
theorem Trimmed.trim_eq {t s : Text} (h : Trimmed t s) : t.trim = s := by
  rcases h with ⟨front, back, rfl, hfront, hback, hhead, hlast⟩
  -- The blanks behind are met from the last to the first.
  have hreversed : ∀ c ∈ back.reverse, isBlank c = true :=
    fun c hc => hback c (List.mem_reverse.mp hc)
  rw [Text.trim]
  by_cases hnil : s = []
  · -- The text is blank, so nothing is left in front of the rest.
    rw [hnil, List.nil_append, ← List.append_nil (front ++ back),
      dropWhile_blanks (List.forall_mem_append.mpr ⟨hfront, hback⟩) (by simp)]
    rfl
  · have hfirst : ∀ c, (s ++ back).head? = some c → isBlank c = false := by
      intro c hc
      rw [List.head?_append_of_ne_nil _ hnil] at hc
      exact hhead c hc
    rw [dropWhile_blanks hfront hfirst, List.reverse_append, dropWhile_blanks hreversed,
      List.reverse_reverse]
    intro c hc
    rw [List.head?_reverse] at hc
    exact hlast c hc

theorem head?_dropWhile {t : Text} {c : Char} (h : (t.dropWhile isBlank).head? = some c) :
    isBlank c = false := by
  have hhead := List.head?_dropWhile_not isBlank t
  rwa [h] at hhead

/-- What trimming leaves stands between the blanks that it drops. -/
theorem trimmed_trim (t : Text) : Trimmed t t.trim := by
  refine ⟨t.takeWhile isBlank, (t.dropWhile isBlank).rtakeWhile isBlank, ?_, ?_, ?_, ?_, ?_⟩
  · rw [trim_eq_rdropWhile, List.rdropWhile_append_rtakeWhile, List.takeWhile_append_dropWhile]
  · exact fun c hc => List.mem_takeWhile_imp hc
  · exact fun c hc => List.mem_rtakeWhile_imp hc
  · intro c hc
    -- Trimming behind leaves the first character where it is, if any is left.
    rcases List.rdropWhile_prefix isBlank (l := t.dropWhile isBlank) with ⟨back, hback⟩
    refine head?_dropWhile (t := t) ?_
    rw [trim_eq_rdropWhile] at hc
    rw [← hback, List.head?_append, hc, Option.some_or]
  · intro c hc
    rw [trim_eq_rdropWhile] at hc
    have hne : (t.dropWhile isBlank).rdropWhile isBlank ≠ [] := by
      intro hnil
      rw [hnil] at hc
      exact absurd hc (by simp)
    -- Dropping from behind stops at a character that is no blank.
    have hlast := List.rdropWhile_last_not isBlank (t.dropWhile isBlank) hne
    rw [List.getLast?_eq_some_getLast hne, Option.some.injEq] at hc
    rwa [hc, Bool.not_eq_true] at hlast

theorem trimmed_iff {t s : Text} : Trimmed t s ↔ t.trim = s :=
  ⟨Trimmed.trim_eq, fun h => h ▸ trimmed_trim t⟩

/-- A blank at the end is trimmed. -/
theorem trim_concat {c : Char} (hc : isBlank c = true) (t : Text) : (t ++ [c]).trim = t.trim := by
  rcases trimmed_trim t with ⟨front, back, ht, hfront, hback, hends⟩
  refine Trimmed.trim_eq ⟨front, back ++ [c], ?_, hfront, ?_, hends⟩
  · nth_rewrite 1 [ht]
    rw [List.append_assoc, List.append_assoc]
  · exact List.forall_mem_append.mpr ⟨hback, by simpa using hc⟩

theorem trim_infix (t : Text) : t.trim <:+: t := by
  rcases trimmed_trim t with ⟨front, back, ht, -⟩
  exact ⟨front, back, by rw [List.append_assoc]; exact ht.symm⟩

end Text

end Stencil
