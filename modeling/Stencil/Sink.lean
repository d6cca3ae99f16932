import Stencil.Format

/-!
# Sinks

Where output goes. A sink accepts characters and runs and hears when the output
is complete. It cannot refuse: a sink that has run out of room drops what does
not fit, and the rendering goes on as if nothing had happened.

A rendering is played into a sink call by call. What the rendering returns was
settled before, so it is the same for every sink; what the sink keeps is its
own affair.

## Main definitions

* `Sink`: The calls that a sink accepts.
* `Rendering.into`: Playing a rendering into a sink.
* `writeFields`, `formatTo`, `formatSilently`: The operations on a sink.

## Theorems

* `Sink.acceptAll_append`: Playing two scripts is playing one after the other.
-/

namespace Stencil

/-- A destination for output. -/
class Sink (σ : Type) where
  writeChar : σ → Char → σ
  writeText : σ → Text → σ
  /-- Hear that the output is complete. Most sinks need not know. -/
  finish : σ → σ := id

namespace Sink

variable {σ : Type} [Sink σ]

/-- Accept one call. -/
def accept (sink : σ) : Event → σ
  | .char c => writeChar sink c
  | .text t => writeText sink t
  | .finish => finish sink

/-- Accept calls in order. -/
def acceptAll (sink : σ) (events : List Event) : σ := events.foldl accept sink

theorem acceptAll_cons (sink : σ) (e : Event) (rest : List Event) :
    acceptAll sink (e :: rest) = acceptAll (accept sink e) rest := rfl

theorem acceptAll_append (sink : σ) (first second : List Event) :
    acceptAll sink (first ++ second) = acceptAll (acceptAll sink first) second :=
  List.foldl_append

end Sink

/-- Play a rendering into a sink. -/
def Rendering.into {σ : Type} [Sink σ] (r : Rendering) (sink : σ) : σ × Except FormatError Count :=
  (Sink.acceptAll sink r.events, r.outcome)

/-- Render a template into a sink and leave the output open. -/
def writeFields {σ : Type} [Sink σ] (sink : σ) (template : Text) (args : Arguments) :
    σ × Except FormatError Count :=
  (fields template args).into sink

/-- Render a template into a sink and complete the output. -/
def formatTo {σ : Type} [Sink σ] (sink : σ) (template : Text) (args : Arguments) :
    σ × Except FormatError Count :=
  (format template args).into sink

/-- Render a template into a sink, complete the output, and keep quiet about a
    failure. -/
def formatSilently {σ : Type} [Sink σ] (sink : σ) (template : Text) (args : Arguments) :
    σ × Count :=
  (((format template args).into sink).1, (format template args).silentCount)

end Stencil
