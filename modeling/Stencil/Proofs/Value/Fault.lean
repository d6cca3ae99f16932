import Stencil.Proofs.Template.Parsing
import Stencil.Proofs.Value.BuiltIn

/-!
# How a Fault Is Shown

A fault is shown by a template of its own, which is read while another template is
being rendered, perhaps that of another fault. Nothing of this can be seen from
outside. What is shown is the place and the code between three fixed texts, and
both are shown as they are: they are arguments, and no argument is ever read as a
template. A code that fails ends the fault where it fails, with its own error.

The template around a fault counts its unnumbered fields as if the fault had none.
The fault may be replaced by a renderer that knows nothing of templates and puts
the three texts round the code by itself, and every field of the template around
it still gets the argument that its reading prescribes.

## Main definitions

* `Fault.opening`, `Fault.divider`, `Fault.closing`: The texts round place and code.
* `Fault.layout`: What is shown of a fault, without a template.
* `Fault.laidOut`: Arguments with this layout among them.

## Theorems

* `Fault.content_layout`: The text of a fault.
* `Value.render_fault`: Rendering a fault is showing it.
* `Value.render_fault_of_ok`, `Value.render_fault_of_error`: The calls of a fault.
* `Value.fault_framed`: What a fault sends and reports, alone and in a template.
-/

namespace Stencil

namespace Fault

/-- What stands in front of the place. -/
def opening : Text := [':', ':', 'E', 'r', 'r', '{', 'a', 't', ' ']

/-- What stands between the place and the code. -/
def divider : Text := [':', ' ']

/-- What stands behind the code. -/
def closing : Text := ['}']

/-- The runs in front of the code. A run ends in front of the brace in the opening,
    because the brace is an escaped one. -/
def front (location : Text) : List Text := [opening.take 5, opening.drop 5, location, divider]

/-- A fault as it is shown, given what its code does. The bytes that are counted in
    advance are those of the three fixed texts. -/
def layout (location : Text) (code : Rendering) : Rendering :=
  match code.outcome with
  | .ok n =>
    ⟨(front location).map Event.text ++ (code.events ++ [.text closing]),
      .ok (n + Count.ofNat (12 + location.byteLength))⟩
  | .error e => ⟨(front location).map Event.text ++ code.events, .error e⟩

/-- Arguments with the layout of a fault among them, whatever the spec. -/
def laidOut (before : Arguments) (location : Text) (code : Rendering) (after : Arguments) :
    Arguments :=
  before ++ (fun _ => layout location code) :: after

theorem flatten_front (location : Text) :
    (front location).flatten = opening ++ location ++ divider := by
  simp [front, opening]

theorem byteLength_front (location : Text) :
    Text.byteLength (front location).flatten = 11 + location.byteLength := by
  rw [flatten_front, Text.byteLength_append, Text.byteLength_append, Nat.add_right_comm]
  rfl

/-- The layout puts renderings one behind another, and stops where the code fails. -/
theorem layout_eq (location : Text) (code : Rendering) :
    layout location code = (Rendering.concat ((front location).map Rendering.text)).andThen
      (code.andThen (.text closing)) := by
  -- The texts in front cannot fail, and a failing code is the last part.
  rw [Rendering.concat_texts, Rendering.andThen_of_ok rfl, layout]
  cases hcode : code.outcome with
  | error e =>
      rw [Rendering.andThen_of_error hcode, hcode]
      rfl
  | ok n =>
      -- The count of the code stands between those of the texts round it.
      have hcount : Text.count (front location).flatten + (n + Text.count closing) =
          n + Count.ofNat (12 + location.byteLength) := by
        rw [Count.add_comm, Count.add_assoc, Text.count, Text.count, ← Count.ofNat_add,
          byteLength_front, ← Nat.add_assoc]
        rfl
      rw [Rendering.andThen_of_ok hcode]
      simp only [Rendering.text, Except.map, hcount]

/-- The text of a fault: the place and the code between the fixed texts, or no more
    than the code wrote before it failed. -/
theorem content_layout (location : Text) (code : Rendering) :
    (layout location code).content = opening ++ location ++ divider ++ code.content ++
      match code.outcome with
      | .ok _ => closing
      | .error _ => [] := by
  rw [layout_eq, Rendering.content_andThen_of_ok (by rw [Rendering.concat_texts]),
    Rendering.concat_texts, Rendering.content, Rendering.flatMap_texts, flatten_front]
  cases hcode : code.outcome with
  | error e => rw [Rendering.andThen_of_error hcode, List.append_nil]
  | ok n =>
      rw [Rendering.content_andThen_of_ok hcode, ← List.append_assoc]
      exact congrArg (_ ++ ·) (List.append_nil closing)

end Fault

namespace Value

/-- The template of a fault renders the place in its first field and the code in its
    second, where the spec is empty. -/
theorem render_fault (location : Text) (code : Value) (spec : Text) :
    (fault location code).render spec = Fault.layout location (code.render []) := by
  -- The template is a fixed one, so its pieces are found by computing.
  have hsteps : (fault location code).render spec =
      (Rendering.text [':', ':', 'E', 'r', 'r']).andThen
        ((Rendering.text ['{', 'a', 't', ' ']).andThen
          ((Rendering.text location).andThen ((Rendering.text Fault.divider).andThen
            ((code.render []).andThen ((Rendering.text Fault.closing).andThen .done))))) := by
    rw [render, fields, parse_faultTemplate]
    rfl
  rw [hsteps, Fault.layout_eq, Rendering.andThen_done]
  simp only [Fault.front, List.map_cons, List.map_nil, Rendering.concat,
    Rendering.andThen_assoc, Rendering.done_andThen]
  rfl

/-- A fault whose code is rendered: twelve bytes and those of the place are reported
    on top of what the code reports. -/
theorem render_fault_of_ok (location : Text) {code : Value} {n : Count}
    (hcode : (code.render []).outcome = .ok n) (spec : Text) :
    (fault location code).render spec =
      ⟨(Fault.front location).map Event.text ++
          ((code.render []).events ++ [.text Fault.closing]),
        .ok (n + Count.ofNat (12 + (Text.bytes location).length))⟩ := by
  rw [render_fault, Fault.layout, Text.length_bytes]
  simp only [hcode]

/-- A fault whose code fails: nothing comes behind what the code sent. -/
theorem render_fault_of_error (location : Text) {code : Value} {e : FormatError}
    (hcode : (code.render []).outcome = .error e) (spec : Text) :
    (fault location code).render spec =
      ⟨(Fault.front location).map Event.text ++ (code.render []).events, .error e⟩ := by
  rw [render_fault, Fault.layout]
  simp only [hcode]

/-- A fault with any place and any code, in a field with any spec. If the code is
    rendered, the sink hears the fixed texts with the place and the calls of the code
    between them, and twelve bytes and those of the place are reported on top of what
    the code reports. If the code fails, the fault fails with the same error, and the
    last calls are those that the code made. A template with a fault among its
    arguments makes the calls that its reading prescribes for the layout in place of
    the fault, where every unnumbered field has the number of those to the left of it
    in that template. -/
theorem fault_framed (location : Text) (code : Value) :
    (∀ spec n, (code.render []).outcome = .ok n →
      heard (fun trace => ((fault location code).render spec).into trace) =
          (Fault.front location).map Event.text ++
            (heard (fun trace => (code.render []).into trace) ++ [.text Fault.closing]) ∧
        received (fun trace => ((fault location code).render spec).into trace) =
          Fault.opening ++ location ++ Fault.divider ++
            received (fun trace => (code.render []).into trace) ++ Fault.closing ∧
        ∀ {σ : Type} [Sink σ] (sink : σ), ((fault location code).render spec).into sink =
          (Sink.acceptAll sink ((Fault.front location).map Event.text ++
              ((code.render []).events ++ [.text Fault.closing])),
            .ok (n + Count.ofNat (12 + (Text.bytes location).length)))) ∧
      (∀ spec e, (code.render []).outcome = .error e →
        heard (fun trace => ((fault location code).render spec).into trace) =
            (Fault.front location).map Event.text ++
              heard (fun trace => (code.render []).into trace) ∧
          received (fun trace => ((fault location code).render spec).into trace) =
            Fault.opening ++ location ++ Fault.divider ++
              received (fun trace => (code.render []).into trace) ∧
          ∀ {σ : Type} [Sink σ] (sink : σ), ((fault location code).render spec).into sink =
            (Sink.acceptAll sink ((Fault.front location).map Event.text ++
              (code.render []).events), .error e)) ∧
      ∀ template : Text, ∃ r : Reading, r.Reads template ∧
        ∀ before after : Arguments,
          (before ++ (fault location code).render :: after).length ≤ Count.limit →
          heard (fun trace => writeFields trace template
              (before ++ (fault location code).render :: after)) =
              (r.expansion (Fault.laidOut before location (code.render []) after)).events ∧
            ∀ {σ : Type} [Sink σ] (sink : σ),
              writeFields sink template (before ++ (fault location code).render :: after) =
                (Sink.acceptAll sink
                  (r.expansion (Fault.laidOut before location (code.render []) after)).events,
                (r.expansion (Fault.laidOut before location (code.render []) after)).outcome) := by
  refine ⟨?_, ?_, ?_⟩
  · intro spec n hcode
    have hshown := render_fault_of_ok location hcode spec
    refine ⟨?_, ?_, ?_⟩
    · rw [heard_into, heard_into, hshown]
    · rw [received_into, received_into, render_fault, Fault.content_layout]
      simp only [hcode]
    · intro σ _ sink
      rw [hshown, Rendering.into]
  · intro spec e hcode
    have hshown := render_fault_of_error location hcode spec
    refine ⟨?_, ?_, ?_⟩
    · rw [heard_into, heard_into, hshown]
    · rw [received_into, received_into, render_fault, Fault.content_layout]
      simp only [hcode, List.append_nil]
    · intro σ _ sink
      rw [hshown, Rendering.into]
  · intro template
    rcases Reading.exists_reads template with ⟨r, hr⟩
    refine ⟨r, hr, ?_⟩
    intro before after hlength
    -- The template sees the renderer of the fault and nothing else of it.
    have hrender : (fault location code).render =
        fun _ => Fault.layout location (code.render []) := by
      funext spec
      exact render_fault location code spec
    rw [Fault.laidOut, ← hrender]
    exact writeFields_plays (Reading.fields_eq_expansion hr hlength)

/-- The field behind a failed check gets the next argument. -/
example : (fields ['{', '}', '{', '}']
      (arguments [checked ['x'] (char 'c') false, char 'd'])).content =
    ['E', ':'] ++ Fault.opening ++ ['x', ':', ' ', 'c', '}', 'd'] := by
  decide +kernel

end Value

end Stencil
