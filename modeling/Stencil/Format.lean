import Stencil.Template

/-!
# Formatting

The operations on a template as a whole.

`fields` renders a template and no more. It is what a renderer uses that
expands a template of its own into the output it was given: the enclosing
operation is not over yet, so nothing may be said about completion. `format` is
the outermost operation, and it tells the sink that the output is complete,
once and last, whether or not the rendering succeeded.

## Main definitions

* `fields`: The rendering of a template over its arguments.
* `format`: The same, followed by the notice of completion.
* `silentCount`: The count of a rendering whose failure is of no interest.
-/

namespace Stencil

/-- Render a template over its arguments, leaving the output open. -/
def fields (template : Text) (args : Arguments) : Rendering :=
  (Template.parse template).render args 0

namespace Rendering

/-- Add the notice that the output is complete, after a failure too. -/
def finished (r : Rendering) : Rendering := ⟨r.events ++ [.finish], r.outcome⟩

/-- The count that a caller sees who does not want to hear of failures. -/
def silentCount (r : Rendering) : Count :=
  match r.outcome with
  | .ok n => n
  | .error _ => 0

end Rendering

/-- Render a template over its arguments and complete the output. -/
def format (template : Text) (args : Arguments) : Rendering := (fields template args).finished

end Stencil
