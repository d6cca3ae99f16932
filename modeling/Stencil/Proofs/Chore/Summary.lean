import Stencil.Chore.Summary
import Stencil.Proofs.Text.Lines
import Stencil.Proofs.Text.Pieces

/-!
# What the Summary of a Test Run Is

The output of a test run is not read for its meaning. The summary is a piece of one
of its lines, the first that has the marker in it: what follows the marker, up to
another marker in the same line, and without the blanks round it. Without such a
line it is said that there is none.

So only the first line with the marker counts. Lines in front of it that do not have
the marker may come and go, and so may everything behind it. A marker that is broken
by the end of a line is none.

## Main definitions

* `Summary.Summarizes`: What the summary of an output is.
* `Summary.ofLine`: The summary in one line, if there is one.

## Theorems

* `Summary.extract_eq`: The summary is that of the first line that has one.
* `Summary.ofLine_return`: A carriage return at the end of the line does not count.
* `Summary.extract_append_of_unmarked`: Lines without the marker are passed over.
* `Summary.extract_append_feed`: Nothing behind a line with the marker counts.
* `Summary.extract_first_marked`: What the summary is, and what it depends on.
-/

namespace Stencil

namespace Chore

namespace Summary

/-- A text is the summary of an output: a trimmed piece of the first of its lines with
    the marker in it, or the fallback if there is no such line. -/
inductive Summarizes (output : Text) : Text → Prop
  | missing {lines : List Text} : Text.Lined output lines →
    (∀ line ∈ lines, ¬ marker <:+: line) → Summarizes output fallback
  | found {before after : List Text} {line front rest piece s : Text} :
    Text.Lined output (before ++ line :: after) → (∀ l ∈ before, ¬ marker <:+: l) →
    Text.FirstAt marker line front rest → Text.UpTo marker rest piece →
    Text.Trimmed piece s → Summarizes output s

/-- The summary in a line. -/
def ofLine (line : Text) : Option Text :=
  (Text.cut? marker line).map fun parts => (Text.upTo marker parts.2).trim

theorem marker_eq :
    marker = ['t', 'e', 's', 't', ' ', 'r', 'e', 's', 'u', 'l', 't', ':'] := by
  decide

theorem fallback_eq : fallback = ['(', 's', 'u', 'm', 'm', 'a', 'r', 'y', ' ', 'n', 'o', 't', ' ',
    'a', 'v', 'a', 'i', 'l', 'a', 'b', 'l', 'e', ')'] := by
  decide

theorem marker_ne_nil : marker ≠ [] := by
  rw [marker_eq]
  exact List.cons_ne_nil _ _

/-- The summary is that of the first line that has one. -/
theorem extract_eq (output : Text) :
    extract output = (output.lines.findSome? ofLine).getD fallback := by
  unfold extract
  induction output.lines with
  | nil => rfl
  | cons line lines ih =>
      rw [List.findSome?_cons, List.findSome?_cons, ofLine]
      cases Text.cut? marker line with
      | none => exact ih
      | some parts => rfl

theorem ofLine_eq_none_iff {line : Text} : ofLine line = none ↔ ¬ marker <:+: line := by
  rw [ofLine, Option.map_eq_none_iff, Text.cut?_eq_none_iff]

/-- A line has the summary that stands behind its first marker, up to the second. -/
theorem ofLine_eq_some_iff {line s : Text} :
    ofLine line = some s ↔ ∃ front rest piece, Text.FirstAt marker line front rest ∧
      Text.UpTo marker rest piece ∧ Text.Trimmed piece s := by
  rw [ofLine, Option.map_eq_some_iff]
  refine ⟨?_, ?_⟩
  · rintro ⟨⟨front, rest⟩, hcut, rfl⟩
    exact ⟨front, rest, _, Text.cut?_eq_some_iff.mp hcut, Text.upTo_iff.mpr rfl,
      Text.trimmed_iff.mpr rfl⟩
  · rintro ⟨front, rest, piece, hfirst, hpiece, htrimmed⟩
    refine ⟨(front, rest), Text.cut?_eq_some_iff.mpr hfirst, ?_⟩
    rw [Text.upTo_iff.mp hpiece, Text.trimmed_iff.mp htrimmed]

/-- A carriage return at the end of a line is trimmed, or stands behind the second
    marker. -/
theorem ofLine_return (line : Text) : ofLine (line ++ ['\r']) = ofLine line := by
  have hreturn : '\r' ∉ marker := by
    rw [marker_eq]
    decide
  have hrest : ∀ rest : Text,
      (Text.upTo marker (rest ++ ['\r'])).trim = (Text.upTo marker rest).trim := by
    intro rest
    -- Behind a second marker the return is cut off, and else it is trimmed.
    unfold Text.upTo
    rw [Text.cut?_concat marker_ne_nil hreturn]
    cases Text.cut? marker rest with
    | none => exact Text.trim_concat (by decide) rest
    | some parts => rfl
  rw [ofLine, ofLine, Text.cut?_concat marker_ne_nil hreturn, Option.map_map]
  refine congrArg (Option.map · _) ?_
  funext parts
  exact hrest parts.2

theorem findSome?_eq_none_of_unmarked {lines : List Text} (h : ∀ line ∈ lines, ¬ marker <:+: line) :
    lines.findSome? ofLine = none :=
  List.findSome?_eq_none_iff.mpr (fun line hline => ofLine_eq_none_iff.mpr (h line hline))

/-- Only the first line with the marker counts. -/
theorem extract_of_first {output line s : Text} {before after : List Text}
    (hlines : output.lines = before ++ line :: after) (hbefore : ∀ l ∈ before, ¬ marker <:+: l)
    (hline : ofLine line = some s) : extract output = s := by
  rw [extract_eq, hlines, List.findSome?_append, findSome?_eq_none_of_unmarked hbefore,
    Option.none_or, List.findSome?_cons, hline]
  rfl

theorem extract_of_unmarked {output : Text} (h : ∀ line ∈ output.lines, ¬ marker <:+: line) :
    extract output = fallback := by
  rw [extract_eq, findSome?_eq_none_of_unmarked h]
  rfl

/-- There is a first line with the marker, and the summary is in it, or no line has
    the marker. -/
theorem marked_cases (output : Text) :
    (∃ before line after, output.lines = before ++ line :: after ∧
      (∀ l ∈ before, ¬ marker <:+: l) ∧ ofLine line = some (extract output)) ∨
      ((∀ line ∈ output.lines, ¬ marker <:+: line) ∧ extract output = fallback) := by
  cases hfind : output.lines.findSome? ofLine with
  | none =>
      right
      -- Nothing is found in any line, as none has the marker.
      have hnone : ∀ line ∈ output.lines, ¬ marker <:+: line := fun line hline =>
        ofLine_eq_none_iff.mp (List.findSome?_eq_none_iff.mp hfind line hline)
      exact ⟨hnone, extract_of_unmarked hnone⟩
  | some s =>
      left
      rcases List.findSome?_eq_some_iff.mp hfind with ⟨before, line, after, hlines, hline, hnone⟩
      have hbefore : ∀ l ∈ before, ¬ marker <:+: l :=
        fun l hl => ofLine_eq_none_iff.mp (hnone l hl)
      exact ⟨before, line, after, hlines, hbefore,
        by rw [extract_of_first hlines hbefore hline, hline]⟩

/-- What is extracted is the summary, and the only one. -/
theorem summarizes_iff {output s : Text} : Summarizes output s ↔ extract output = s := by
  refine ⟨?_, ?_⟩
  · intro h
    cases h with
    | missing hlined hnone =>
        -- The lines are determined by the text, so they are those that were searched.
        rw [← Text.lined_iff.mp hlined] at hnone
        exact extract_of_unmarked hnone
    | found hlined hbefore hfirst hpiece htrimmed =>
        exact extract_of_first (Text.lined_iff.mp hlined) hbefore
          (ofLine_eq_some_iff.mpr ⟨_, _, _, hfirst, hpiece, htrimmed⟩)
  · rintro rfl
    rcases marked_cases output with ⟨_, line, _, hlines, hbefore, hline⟩ | ⟨hnone, hmissing⟩
    · rcases ofLine_eq_some_iff.mp hline with ⟨front, rest, piece, hfirst, hpiece, htrimmed⟩
      exact .found (Text.lined_iff.mpr hlines) hbefore hfirst hpiece htrimmed
    · rw [hmissing]
      exact .missing (Text.lined_lines output) hnone

/-- The summary in a line is a piece of the line, and no marker is left in it. -/
theorem infix_of_ofLine {line s : Text} (h : ofLine line = some s) :
    s <:+: line ∧ ¬ marker <:+: s := by
  rcases ofLine_eq_some_iff.mp h with ⟨front, rest, piece, hfirst, hpiece, htrimmed⟩
  have hs : s <:+: piece := Text.trimmed_iff.mp htrimmed ▸ Text.trim_infix piece
  have hupTo := Text.upTo_iff.mp hpiece
  refine ⟨?_, ?_⟩
  · have hrest : rest <:+ line := by
      rw [hfirst.whole, ← List.append_assoc]
      exact List.suffix_append _ rest
    have hstarts : piece <+: rest := hupTo ▸ Text.upTo_isPrefix marker rest
    exact hs.trans (hstarts.isInfix.trans hrest.isInfix)
  · intro hmarker
    -- A marker in the summary would be one in front of the second.
    exact Text.not_infix_upTo marker_ne_nil rest (hupTo ▸ hmarker.trans hs)

theorem ofLine_nil : ofLine [] = none := by
  rw [ofLine_eq_none_iff, List.infix_nil]
  exact marker_ne_nil

/-- The summary stands in a line, and no line has a line feed in it. -/
theorem feed_notMem_extract (output : Text) : '\n' ∉ extract output := by
  rcases marked_cases output with ⟨_, line, _, hlines, -, hline⟩ | ⟨-, hmissing⟩
  · have hfeed := (Text.lined_iff.mpr hlines).feed_notMem line (by simp)
    exact fun hmem => hfeed ((infix_of_ofLine hline).1.subset hmem)
  · rw [hmissing, fallback_eq]
    decide

theorem not_infix_extract (output : Text) : ¬ marker <:+: extract output := by
  rcases marked_cases output with ⟨_, _, _, -, -, hline⟩ | ⟨-, hmissing⟩
  · exact (infix_of_ofLine hline).2
  · rw [hmissing, fallback_eq, marker_eq]
    decide

theorem extract_infix_first {output line : Text} {before after : List Text}
    (hlines : output.lines = before ++ line :: after) (hbefore : ∀ l ∈ before, ¬ marker <:+: l)
    (hmarker : marker <:+: line) : extract output <:+: line := by
  cases hline : ofLine line with
  | none => exact absurd hmarker (ofLine_eq_none_iff.mp hline)
  | some s =>
      rw [extract_of_first hlines hbefore hline]
      exact (infix_of_ofLine hline).1

/-- Complete lines without the marker in front of an output are passed over. -/
theorem extract_append_of_unmarked {front : Text} (hfront : front.Complete)
    (hunmarked : ∀ line ∈ front.lines, ¬ marker <:+: line) (output : Text) :
    extract (front ++ output) = extract output := by
  rw [extract_eq, extract_eq, hfront.lines_append, List.findSome?_append,
    findSome?_eq_none_of_unmarked hunmarked, Option.none_or]

/-- What comes behind a line with the marker is not looked at. The line feed in front
    of it may take a carriage return off the last line, which is no loss. -/
theorem extract_append_feed {output line : Text} (hline : line ∈ output.lines)
    (hmarker : marker <:+: line) (after : Text) :
    extract (output ++ '\n' :: after) = extract output := by
  cases hfind : output.lines.findSome? ofLine with
  | none =>
      -- The line with the marker has a summary.
      exact absurd hmarker
        (ofLine_eq_none_iff.mp (List.findSome?_eq_none_iff.mp hfind line hline))
  | some s =>
      rw [extract_eq, extract_eq, Text.lines_append_feed, List.findSome?_append,
        Text.findSome?_lines_feed ofLine_nil ofLine_return, hfind, Option.some_or]

/-- What the summary of an output is, whatever the output. It has no line feed and no
    marker in it, and where a line has the marker it is a piece of the first such
    line. It does not change if complete lines without the marker are put in front,
    or, once there is a line with the marker, if that line is ended and anything is
    put behind it. -/
theorem extract_first_marked (output : Text) :
    (∀ s, Summarizes output s ↔ extract output = s) ∧
      '\n' ∉ extract output ∧ ¬ marker <:+: extract output ∧
      (∀ before line after, output.lines = before ++ line :: after →
        (∀ l ∈ before, ¬ marker <:+: l) → marker <:+: line → extract output <:+: line) ∧
      (∀ front : Text, front.Complete →
        (∀ line ∈ front.lines, ¬ marker <:+: line) → extract (front ++ output) = extract output) ∧
      ((∃ line ∈ output.lines, marker <:+: line) →
        ∀ after, extract (output ++ '\n' :: after) = extract output) := by
  refine ⟨fun _ => summarizes_iff, feed_notMem_extract output, not_infix_extract output, ?_, ?_, ?_⟩
  · intro before line after hlines hbefore hmarker
    exact extract_infix_first hlines hbefore hmarker
  · intro front hfront hunmarked
    exact extract_append_of_unmarked hfront hunmarked output
  · rintro ⟨line, hline, hmarker⟩ after
    exact extract_append_feed hline hmarker after

/-- The marker is broken by the end of a line, and then stands twice on one that ends
    in a carriage return and a line feed. -/
example : extract (['t', 'e', 's', 't', ' ', '\n', 'r', 'e', 's', 'u', 'l', 't', ':', '\n'] ++
    marker ++ [' ', 'o', 'k'] ++ marker ++ ['\r', '\n']) = ['o', 'k'] := by
  decide +kernel

end Summary

end Chore

end Stencil
