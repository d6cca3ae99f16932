import Stencil.Sink

/-!
# Traces

A sink that writes down every call. It shows how output was divided between
calls, which no sink that stores text can show.

So a trace tells what an operation does to its sink. It hears the calls that the
operation makes, and the text that it receives is what every other sink is sent,
whatever becomes of it there.

## Main definitions

* `Trace`: The calls heard, last one first.
* `Trace.events`: The calls in the order in which they came.
* `heard`: The calls that an operation makes on its sink.
* `received`: The text that an operation sends to its sink.

## Theorems

* `Trace.events_acceptAll`: A trace hears exactly the calls it is given.
* `heard_into`, `received_into`: Playing a rendering makes the calls of its script.
* `acceptAll_heard`: Every sink takes the calls that a trace hears.
-/

namespace Stencil

/-- The calls heard so far. -/
structure Trace where
  /-- The calls, last one first, so that hearing one more takes one step. -/
  reversed : List Event

namespace Trace

def empty : Trace := ⟨[]⟩

def hear (trace : Trace) (e : Event) : Trace := ⟨e :: trace.reversed⟩

/-- The calls in order. -/
def events (trace : Trace) : List Event := trace.reversed.reverse

instance : Sink Trace where
  writeChar trace c := trace.hear (.char c)
  writeText trace t := trace.hear (.text t)
  finish trace := trace.hear .finish

theorem accept_eq_hear (trace : Trace) (e : Event) : Sink.accept trace e = trace.hear e := by
  cases e <;> rfl

theorem events_acceptAll (trace : Trace) (es : List Event) :
    (Sink.acceptAll trace es).events = trace.events ++ es := by
  induction es generalizing trace with
  | nil => simp only [Sink.acceptAll, List.foldl_nil, List.append_nil]
  | cons e rest ih =>
      rw [Sink.acceptAll_cons, accept_eq_hear, ih (trace.hear e)]
      simp only [events, hear, List.reverse_cons, List.append_assoc, List.singleton_append]

end Trace

/-- The calls that an operation makes on its sink, as a trace hears them. -/
def heard {α : Type} (operation : Trace → Trace × α) : List Event :=
  (operation Trace.empty).1.events

/-- The text that an operation sends to its sink, call by call. -/
def received {α : Type} (operation : Trace → Trace × α) : Text := sentText (heard operation)

theorem heard_into (r : Rendering) : heard (fun sink => r.into sink) = r.events :=
  (Trace.events_acceptAll Trace.empty r.events).trans (List.nil_append _)

theorem received_into (r : Rendering) : received (fun sink => r.into sink) = r.content :=
  congrArg sentText (heard_into r)

/-- A trace tells what becomes of any other sink: it takes the calls that the trace
    hears, and no others. -/
theorem acceptAll_heard {σ : Type} [Sink σ] (sink : σ) (r : Rendering) :
    Sink.acceptAll sink (heard fun trace => r.into trace) = (r.into sink).1 := by
  rw [heard_into, Rendering.into]

end Stencil
