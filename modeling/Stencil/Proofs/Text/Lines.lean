import Mathlib.Data.List.Basic
import Stencil.Text.Lines

/-!
# What the Lines of a Text Are

The lines of a text are found from left to right with the line in hand kept back to
front. Here it is said what they are without going over the text. A text is empty,
or it is one line without an end, or it is a line and the end of a line in front of
another text. The end is a line feed, with a carriage return in front of it or not,
and every text comes from its lines in one way only.

A line feed divides a text for good: the lines in front of it are the same whatever
follows, and the lines behind it whatever precedes.

## Main definitions

* `Text.Lined`: The lines that a text is made of.
* `Text.Complete`: The last line of a text is ended, if there is one.

## Theorems

* `Text.lined_iff`: A text is made of its lines, and of no others.
* `Text.lines_append_feed`, `Text.Complete.lines_append`: A line feed divides the lines.
* `Text.findSome?_lines_feed`: What the end of the last line can change.
-/

namespace Stencil

namespace Text

/-- A text is made of lines. A carriage return in front of a line feed is no part of
    the line, and nothing follows a line feed at the end. -/
inductive Lined : Text → List Text → Prop
  | nil : Lined [] []
  | last {line : Text} : line ≠ [] → '\n' ∉ line → Lined line [line]
  | feed {line rest : Text} {lines : List Text} :
    '\n' ∉ line → line.getLast? ≠ some '\r' → Lined rest lines →
    Lined (line ++ '\n' :: rest) (line :: lines)
  | returnFeed {line rest : Text} {lines : List Text} :
    '\n' ∉ line → Lined rest lines → Lined (line ++ '\r' :: '\n' :: rest) (line :: lines)

/-- A text does not stop within a line. -/
def Complete (t : Text) : Prop := t = [] ∨ ∃ front, t = front ++ ['\n']

/-- Up to the next line feed characters join the run in hand. -/
theorem linesFrom_append {line : Text} (h : '\n' ∉ line) (run rest : Text) :
    linesFrom run (line ++ rest) = linesFrom (line.reverse ++ run) rest := by
  induction line generalizing run with
  | nil => rfl
  | cons c line ih =>
      have hc : c ≠ '\n' := fun hc => h (hc ▸ List.mem_cons_self)
      have hline : '\n' ∉ line := fun hmem => h (List.mem_cons_of_mem c hmem)
      rw [List.cons_append, linesFrom, if_neg hc, ih hline, List.reverse_cons, List.append_assoc,
        List.singleton_append]

theorem linesFrom_feed (run rest : Text) :
    linesFrom run ('\n' :: rest) = endLine run :: lines rest := by
  rw [linesFrom, if_pos rfl, lines]

theorem endLine_reverse {line : Text} (h : line.getLast? ≠ some '\r') :
    endLine line.reverse = line := by
  rw [← List.head?_reverse] at h
  rw [endLine, List.reverse_reverse]
  intro rest hrest
  rw [hrest] at h
  exact h rfl

/-- The lines that a text is made of are those that it is split into, by induction on
    how it is made. -/
theorem Lined.lines_eq {t : Text} {ls : List Text} (h : Lined t ls) : t.lines = ls := by
  induction h with
  | nil => rfl
  | @last line hne hfeed =>
      -- The end of the text ends the last line as it is.
      have hrun := linesFrom_append hfeed [] []
      rw [List.append_nil, List.append_nil] at hrun
      rw [lines, hrun, linesFrom, List.isEmpty_reverse, List.reverse_reverse, if_neg]
      rwa [List.isEmpty_iff]
  | feed hfeed hreturn _ ih =>
      rw [lines, linesFrom_append hfeed, List.append_nil, linesFrom_feed, endLine_reverse hreturn,
        ih]
  | @returnFeed line rest ls hfeed _ ih =>
      -- The carriage return is the character in hand when the line feed is met.
      have hrun : '\n' ∉ line ++ ['\r'] := by
        simp [hfeed]
      have hsplit : line ++ '\r' :: '\n' :: rest = (line ++ ['\r']) ++ '\n' :: rest := by
        simp
      rw [lines, hsplit, linesFrom_append hrun, List.append_nil, linesFrom_feed, ih,
        List.reverse_append, List.reverse_singleton, List.singleton_append, endLine,
        List.reverse_reverse]

/-- Every text is made of lines, by induction on its length. Its first line feed shows
    where the first line ends. -/
theorem exists_lined (t : Text) : ∃ ls, Lined t ls := by
  induction hn : t.length using Nat.strongRecOn generalizing t with
  | ind n ih =>
    by_cases hfeed : '\n' ∈ t
    · rcases List.eq_append_cons_of_mem hfeed with ⟨line, rest, rfl, hline⟩
      have hshort : rest.length < n := by
        rw [← hn, List.length_append, List.length_cons]
        omega
      rcases ih rest.length hshort rest rfl with ⟨ls, hls⟩
      -- A carriage return in front of the line feed belongs to the end of the line.
      by_cases hreturn : line.getLast? = some '\r'
      · rcases List.getLast?_eq_some_iff.mp hreturn with ⟨front, rfl⟩
        have hfront : '\n' ∉ front := fun hmem => hline (List.mem_append_left _ hmem)
        rw [List.append_assoc, List.singleton_append]
        exact ⟨_, .returnFeed hfront hls⟩
      · exact ⟨_, .feed hline hreturn hls⟩
    · by_cases hnil : t = []
      · exact ⟨[], hnil ▸ .nil⟩
      · exact ⟨[t], .last hnil hfeed⟩

theorem lined_lines (t : Text) : Lined t t.lines := by
  rcases exists_lined t with ⟨ls, hls⟩
  rwa [hls.lines_eq]

/-- A text is made of its lines, and of no others. -/
theorem lined_iff {t : Text} {ls : List Text} : Lined t ls ↔ t.lines = ls :=
  ⟨Lined.lines_eq, fun h => h ▸ lined_lines t⟩

theorem Lined.feed_notMem {t : Text} {ls : List Text} (h : Lined t ls) :
    ∀ line ∈ ls, '\n' ∉ line := by
  induction h with
  | nil => exact fun _ hmem => absurd hmem List.not_mem_nil
  | last _ hfeed => exact fun _ hmem => List.mem_singleton.mp hmem ▸ hfeed
  | feed hfeed _ _ ih => exact List.forall_mem_cons.mpr ⟨hfeed, ih⟩
  | returnFeed hfeed _ ih => exact List.forall_mem_cons.mpr ⟨hfeed, ih⟩

/-- The lines in front of a line feed and those behind it, by induction on what is in
    front. -/
theorem linesFrom_append_feed (run front rest : Text) :
    linesFrom run (front ++ '\n' :: rest) = linesFrom run (front ++ ['\n']) ++ lines rest := by
  induction front generalizing run with
  | nil => rw [List.nil_append, List.nil_append, linesFrom_feed, linesFrom_feed]; rfl
  | cons c front ih =>
      by_cases hc : c = '\n'
      -- A line feed starts a new line on both sides, with an empty run.
      · rw [List.cons_append, List.cons_append, hc, linesFrom_feed, linesFrom_feed, lines, lines,
          ih, List.cons_append]
      · rw [List.cons_append, List.cons_append, linesFrom, linesFrom, if_neg hc, if_neg hc, ih]

theorem lines_append_feed (front rest : Text) :
    lines (front ++ '\n' :: rest) = lines (front ++ ['\n']) ++ lines rest :=
  linesFrom_append_feed [] front rest

/-- What is put behind a complete text is no part of its lines. -/
theorem Complete.lines_append {front : Text} (h : front.Complete) (rest : Text) :
    lines (front ++ rest) = lines front ++ lines rest := by
  rcases h with rfl | ⟨text, rfl⟩
  · rfl
  · rw [List.append_assoc, List.singleton_append, lines_append_feed]

/-- A line feed at the end of a text adds an empty line, or ends the last one and so
    takes a carriage return off it. A search that finds nothing in an empty line, and
    the same with a carriage return as without, finds the same. -/
theorem findSome?_linesFrom_feed {α : Type} {f : Text → Option α} (hnil : f [] = none)
    (hreturn : ∀ line, f (line ++ ['\r']) = f line) (run front : Text) :
    (linesFrom run (front ++ ['\n'])).findSome? f = (linesFrom run front).findSome? f := by
  induction front generalizing run with
  | nil =>
      rw [List.nil_append, linesFrom_feed, linesFrom]
      cases run with
      | nil =>
          -- No line is in hand, and the line feed makes an empty one.
          simp [endLine, lines, linesFrom, hnil]
      | cons c run =>
          -- Without the line feed the carriage return stays on.
          have hline : f (endLine (c :: run)) = f (c :: run).reverse := by
            by_cases hc : c = '\r'
            · rw [hc, endLine, List.reverse_cons, hreturn]
            · rw [endLine]
              intro rest hrest
              exact hc (List.cons.inj hrest).1
          simp [lines, linesFrom, hline]
  | cons c front ih =>
      by_cases hc : c = '\n'
      · rw [List.cons_append, hc, linesFrom_feed, linesFrom_feed, List.findSome?_cons,
          List.findSome?_cons, lines, lines, ih]
      · rw [List.cons_append, linesFrom, linesFrom, if_neg hc, if_neg hc, ih]

theorem findSome?_lines_feed {α : Type} {f : Text → Option α} (hnil : f [] = none)
    (hreturn : ∀ line, f (line ++ ['\r']) = f line) (front : Text) :
    (lines (front ++ ['\n'])).findSome? f = (lines front).findSome? f :=
  findSome?_linesFrom_feed hnil hreturn [] front

end Text

end Stencil
