import Stencil.Proofs.Value.BuiltIn
import Stencil.Sink.Trace

/-!
# Completing the Output

The notice that the output is complete has to come once, and behind everything
else. A sink that terminates its content would otherwise terminate it in the
middle of a line, or not at all.

One operation gives the notice, the outermost one, and it gives it whether the
rendering succeeds or not. So what has to be shown is that nothing else does.
The renderers of this library only write. Sequencing makes no calls of its own,
so a template gives the notice only if one of its arguments does. A value that
expands a template into the output it was given, a fault for one, is then no
different from any other, to whatever depth it is nested. What is left are the
renderers that a program brings along. They could give the notice too early,
and it has to be assumed of them that they do not.

## Main definitions

* `Rendering.Open`: A rendering gives no notice.
* `Value.OnlyWrites`: A value in which no renderer from outside gives the notice.

## Theorems

* `Rendering.composable_open`: Putting renderings together leaves the output open.
* `Value.open_render`: A value that only writes leaves it open.
* `Value.completed_once_and_last`: The notice comes once, and last of all calls.
-/

namespace Stencil

namespace Rendering

/-- No call says that the output is complete. -/
def Open (r : Rendering) : Prop := Event.finish ∉ r.events

theorem open_done : done.Open := List.not_mem_nil

theorem open_char (c : Char) : (char c).Open := by simp [Open, char]

theorem open_text (t : Text) : (text t).Open := by simp [Open, text]

/-- Sequencing makes the calls of its parts and none of its own. -/
theorem Open.andThen {r s : Rendering} (hr : r.Open) (hs : s.Open) : (r.andThen s).Open := by
  unfold Open
  cases hm : r.outcome with
  | error e =>
      rw [andThen_of_error hm]
      exact hr
  | ok m =>
      simp only [andThen_of_ok hm, List.mem_append, not_or]
      exact ⟨hr, hs⟩

theorem composable_open : Composable Open where
  done := open_done
  text := open_text
  fail _ := List.not_mem_nil
  andThen := Open.andThen

end Rendering

namespace HexDump

theorem open_dump (bytes : List UInt8) : (dump bytes).Open := by
  unfold Rendering.Open dump Rendering.reporting
  simp only [List.mem_flatMap, not_exists, not_and]
  intro b _
  simp [entry]

end HexDump

namespace CString

/-- Segments are sent as runs and characters, by induction on them. -/
theorem open_sendSegments (run : Text) (segments : List Utf8.Segment) :
    (sendSegments run segments).Open := by
  induction segments generalizing run with
  | nil =>
      unfold sendSegments
      split
      · exact Rendering.open_done
      · exact Rendering.open_text _
  | cons segment rest ih =>
      cases segment with
      | none => exact (Rendering.open_text _).andThen ((Rendering.open_char _).andThen (ih []))
      | some c => exact ih (c :: run)

end CString

theorem Integer.open_render (n : Integer) (spec : Text) : (n.render spec).Open := by
  unfold Integer.render
  cases Radix.ofSpec spec with
  | decimal => exact Rendering.open_text _
  | hexadecimal letters => simp [Rendering.Open, Rendering.reporting]

namespace FloatText

theorem open_mark (c : Char) : (Rendering.reporting [.char c] 1).Open := Rendering.open_char c

/-- The parts of a number are text and marks, present or not. -/
theorem open_renderSplit (negative : Bool) (s : Split) (precision : Precision) :
    (renderSplit negative s precision).Open := by
  have hfraction : ∀ digits : Text, (fractionPart digits).Open := by
    intro digits
    unfold fractionPart
    split
    · exact Rendering.open_done
    · exact (open_mark _).andThen (Rendering.open_text _)
  have hexponent : ∀ exponent : Int, (exponentPart exponent).Open := by
    intro exponent
    unfold exponentPart
    split
    · exact Rendering.open_done
    · exact (open_mark _).andThen (Rendering.open_text _)
  exact (Rendering.open_text _).andThen ((hfraction _).andThen (hexponent _))

theorem open_render (x : Binary64) (spec : Text) : (render x spec).Open := by
  cases x with
  | nan => exact Rendering.open_text _
  | infinite negative => cases negative <;> exact Rendering.open_text _
  | finite negative magnitude => exact open_renderSplit _ _ _

end FloatText

namespace Value

/-- Renderers from outside only write, wherever they stand in the value. Of the
    rest of the value nothing has to be assumed. -/
def OnlyWrites (v : Value) : Prop :=
  ∀ renderer, Within (.custom renderer) v → ∀ spec, (renderer spec).Open

/-- The renderers of this library only write. -/
theorem Simple.open_render {v : Value} (h : v.Simple) (spec : Text) : (v.render spec).Open := by
  cases h with
  | integer n => rw [render]; exact n.open_render spec
  | float x => rw [render]; exact FloatText.open_render x spec
  | char c => rw [render]; exact Rendering.open_char c
  | text t => rw [render]; exact Rendering.open_text t
  | bool b => rw [render]; exact Rendering.open_text _
  | unit => rw [render]; exact Rendering.open_done
  | cString bytes => rw [render]; exact CString.open_sendSegments _ _
  | region bytes => rw [render]; exact HexDump.open_dump bytes
  | pointer address => rw [render]; exact (addressInteger address).open_render spec
  | none => rw [render]; exact Rendering.open_done

/-- A value that only writes leaves the output open, however it is made. -/
theorem open_render {v : Value} (h : v.OnlyWrites) (spec : Text) : (v.render spec).Open :=
  render_of_composable Rendering.composable_open (fun _ hsimple => hsimple.open_render) v h spec

end Value

namespace Value

/-- What is done with templates and values that only write, by the calls that are
    made. Nothing that takes part in a rendering gives the notice of completion:
    no value, no argument, no dump, and no template that is left open. Completing
    a template makes the same calls with the same result, and then gives the
    notice, once and as the last call, whatever the result. Keeping quiet about
    a failure changes the calls in nothing, and only makes a failure a zero. -/
theorem completed_once_and_last (template : Text) (vs : List Value)
    (h : ∀ v ∈ vs, v.OnlyWrites) :
    (∀ v ∈ vs, ∀ spec, .finish ∉ heard (fun sink => (v.render spec).into sink)) ∧
      (∀ index spec, .finish ∉
        heard (fun sink => ((arguments vs).renderNth index spec).into sink)) ∧
      (∀ bytes, .finish ∉ heard (fun sink => (HexDump.dump bytes).into sink)) ∧
      .finish ∉ heard (fun sink => writeFields sink template (arguments vs)) ∧
      heard (fun sink => formatTo sink template (arguments vs)) =
        heard (fun sink => writeFields sink template (arguments vs)) ++ [.finish] ∧
      (heard (fun sink => formatTo sink template (arguments vs))).count .finish = 1 ∧
      heard (fun sink => formatSilently sink template (arguments vs)) =
        heard (fun sink => formatTo sink template (arguments vs)) ∧
      ∀ {σ : Type} [Sink σ] (sink : σ),
        formatTo sink template (arguments vs) =
            (Sink.finish (writeFields sink template (arguments vs)).1,
              (writeFields sink template (arguments vs)).2) ∧
          (formatSilently sink template (arguments vs)).1 =
            (formatTo sink template (arguments vs)).1 ∧
          (∀ n, (formatTo sink template (arguments vs)).2 = .ok n →
            (formatSilently sink template (arguments vs)).2 = n) ∧
          (∀ e, (formatTo sink template (arguments vs)).2 = .error e →
            (formatSilently sink template (arguments vs)).2 = 0) := by
  have hvalues : ∀ v ∈ vs, ∀ spec, (v.render spec).Open :=
    fun v hv => open_render (h v hv)
  have hargs := forall_arguments hvalues
  have hfields : (fields template (arguments vs)).Open :=
    Template.render_of_composable Rendering.composable_open hargs 0 _
  -- A trace hears the calls as they are, so both are about the calls of the template.
  have hwritten : heard (fun sink => writeFields sink template (arguments vs)) =
      (fields template (arguments vs)).events := heard_into _
  have hformatted : heard (fun sink => formatTo sink template (arguments vs)) =
      (fields template (arguments vs)).events ++ [.finish] := heard_into _
  rw [hwritten, hformatted]
  refine ⟨?_, ?_, ?_, hfields, rfl, ?_, hformatted, ?_⟩
  · intro v hv spec
    rw [heard_into]
    exact hvalues v hv spec
  · intro index spec
    rw [heard_into]
    exact Arguments.renderNth_of_composable Rendering.composable_open hargs index spec
  · intro bytes
    rw [heard_into]
    exact HexDump.open_dump bytes
  · rw [List.count_append, List.count_eq_zero_of_not_mem hfields]
    rfl
  · intro σ _ sink
    -- The notice is one more call behind those of the template.
    have hcalls : (formatTo sink template (arguments vs)).1 =
        Sink.finish (writeFields sink template (arguments vs)).1 :=
      Sink.acceptAll_append sink (fields template (arguments vs)).events [.finish]
    refine ⟨Prod.ext hcalls rfl, rfl, ?_, ?_⟩
    · intro n hn
      have houtcome : (format template (arguments vs)).outcome = .ok n := hn
      simp only [formatSilently, Rendering.silentCount, houtcome]
    · intro e he
      have houtcome : (format template (arguments vs)).outcome = .error e := he
      simp only [formatSilently, Rendering.silentCount, houtcome]

/-- A renderer fails inside a template inside a template. The notice comes behind
    what it wrote, and not behind what is left of either template. -/
theorem completed_after_failure :
    (∀ v ∈ [Value.nested ['<', '{', '}', '>']
        [.custom fun _ => ⟨[.char 'x'], .error .unrenderable⟩]], v.OnlyWrites) ∧
      heard (fun sink => formatTo sink ['{', '}', '!'] (arguments
        [Value.nested ['<', '{', '}', '>']
          [.custom fun _ => ⟨[.char 'x'], .error .unrenderable⟩]])) =
        [.text ['<'], .char 'x', .finish] := by
  have hwrites : ∀ v ∈ [Value.nested ['<', '{', '}', '>']
      [.custom fun _ => ⟨[.char 'x'], .error .unrenderable⟩]], v.OnlyWrites := by
    intro v hv renderer hin spec
    rw [List.mem_singleton.mp hv] at hin
    -- The only renderer from outside is the one that fails, and it writes.
    cases hin with
    | nested _ hmem hwithin =>
        rw [List.mem_singleton.mp hmem] at hwithin
        cases hwithin
        simp [Rendering.Open]
  refine ⟨hwrites, ?_⟩
  have hcalls := (completed_once_and_last ['{', '}', '!'] _ hwrites).2.2.2.2.1
  rw [hcalls]
  decide +kernel

end Value

end Stencil
