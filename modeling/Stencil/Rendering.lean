import Stencil.FormatError
import Stencil.Text

/-!
# Renderings

What a renderer does, written down: the calls it makes on whatever sink it is
given, in order, and how it ends.

A sink can be written to but not read from, so nothing a renderer does can
depend on the sink behind it. A renderer is therefore a script, and the script
is all there is to know about it. Where the output goes, and how much of it is
kept, is the business of the sink that plays the script (`Stencil.Sink`).

The count a rendering ends with is what the renderer claims to have produced.
Most of the combinators below keep the claim honest, each adding to the count
what it adds to the script. A renderer that works its count out apart from what
it writes is a `reporting`, and one supplied from outside may claim anything.
Sequencing stops at the first failure and keeps what was written up to there.

## Main definitions

* `Event`: One call on a sink.
* `sentText`: The text that calls send.
* `Rendering`: The calls made, and the outcome.
* `Rendering.reporting`: Calls, and a count worked out apart from them.
* `Rendering.andThen`: One rendering after another.
* `Rendering.concat`: A list of renderings in order.
* `Renderer`: A rendering for every field spec.
* `Arguments`: The renderers a template selects from.

## Theorems

* `Rendering.andThen_of_ok`, `Rendering.andThen_of_error`: What sequencing does
  after a success and after a failure.
* `Rendering.content_andThen_of_ok`: After a success the texts are sent in a row.
* `Rendering.andThen_assoc`, `Rendering.done_andThen`, `Rendering.andThen_done`:
  Renderings form a monoid under sequencing.
-/

namespace Stencil

/-- One call on a sink. -/
inductive Event
  | char (c : Char)
  /-- A run of characters, possibly an empty one. -/
  | text (t : Text)
  | finish
  deriving DecidableEq

namespace Event

/-- The characters that a call carries. -/
def content : Event → Text
  | char c => [c]
  | text t => t
  | finish => []

end Event

/-- The text that calls send. -/
def sentText (es : List Event) : Text := es.flatMap Event.content

theorem sentText_cons (e : Event) (rest : List Event) :
    sentText (e :: rest) = e.content ++ sentText rest := rfl

/-- The calls a renderer makes, and the count or the error it ends with. -/
structure Rendering where
  events : List Event
  outcome : Except FormatError Count

namespace Rendering

/-- All characters sent, in order. -/
def content (r : Rendering) : Text := r.events.flatMap Event.content

/-- No calls, and nothing produced. -/
def done : Rendering := ⟨[], .ok 0⟩

/-- One call with a single character. -/
def char (c : Char) : Rendering := ⟨[.char c], .ok (Count.ofNat c.utf8Size)⟩

/-- One call with a run of characters. -/
def text (t : Text) : Rendering := ⟨[.text t], .ok (Text.count t)⟩

/-- Calls made, and a count that was worked out apart from them. -/
def reporting (events : List Event) (length : Nat) : Rendering :=
  ⟨events, .ok (Count.ofNat length)⟩

/-- No calls, and a failure. -/
def fail (e : FormatError) : Rendering := ⟨[], .error e⟩

/-- One rendering after another. The second takes place only if the first
    succeeds, and their counts add up. -/
def andThen (first second : Rendering) : Rendering :=
  match first.outcome with
  | .error e => ⟨first.events, .error e⟩
  | .ok m => ⟨first.events ++ second.events, second.outcome.map (m + ·)⟩

/-- Renderings one after another, up to the first that fails. -/
def concat : List Rendering → Rendering
  | [] => done
  | r :: rest => r.andThen (concat rest)

theorem andThen_of_ok {r : Rendering} {m : Count} (h : r.outcome = .ok m) (s : Rendering) :
    r.andThen s = ⟨r.events ++ s.events, s.outcome.map (m + ·)⟩ := by
  simp only [andThen, h]

theorem andThen_of_error {r : Rendering} {e : FormatError} (h : r.outcome = .error e)
    (s : Rendering) : r.andThen s = r := by
  rcases r with ⟨events, outcome⟩
  simp only at h
  simp only [andThen, h]

theorem content_andThen_of_ok {r : Rendering} {m : Count} (h : r.outcome = .ok m)
    (s : Rendering) : (r.andThen s).content = r.content ++ s.content := by
  rw [andThen_of_ok h]
  exact List.flatMap_append

theorem done_andThen (r : Rendering) : done.andThen r = r := by
  rcases r with ⟨events, _ | n⟩
  · rfl
  · simp only [done, andThen, Except.map, List.nil_append, Count.zero_add]

theorem andThen_done (r : Rendering) : r.andThen done = r := by
  rcases r with ⟨events, _ | n⟩
  · rfl
  · simp only [done, andThen, Except.map, List.append_nil, Count.add_zero]

theorem andThen_assoc (r s t : Rendering) :
    (r.andThen s).andThen t = r.andThen (s.andThen t) := by
  rcases r with ⟨er, _ | m⟩
  · rfl
  · rcases s with ⟨es, _ | n⟩
    · rfl
    · rcases t with ⟨et, _ | k⟩
      · simp only [andThen, Except.map, List.append_assoc]
      · simp only [andThen, Except.map, List.append_assoc, Count.add_assoc]

end Rendering

/-- What a value does with a field: the spec, which is the text between the
    colon and the closing brace, decides what is rendered. -/
abbrev Renderer := Text → Rendering

/-- The renderers a template selects from, in order. -/
abbrev Arguments := List Renderer

namespace Arguments

/-- The rendering of one argument. There is nothing to render past the end of
    the list. -/
def renderNth (args : Arguments) (index : Nat) (spec : Text) : Rendering :=
  match args[index]? with
  | some renderer => renderer spec
  | none => .fail .notEnoughArguments

end Arguments

end Stencil
