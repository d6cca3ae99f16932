import Stencil.Format

/-!
# What Rendering a Template Adds

A template puts renderings one behind another: its runs of text and what its
arguments render, and at its end perhaps a failure. It adds nothing of its own to
them. So a property of renderings that text and failures have, and that is kept
when one rendering follows another, is a property of the template as soon as it
is one of the arguments, whatever they are.

That saves going through the pieces of a template, or through all the ways in
which a value can hold others, for every such property again.

## Main definitions

* `Rendering.Composable`: A property that putting renderings together keeps.

## Theorems

* `Template.render_of_composable`: It is one of a template if one of its arguments.
* `Arguments.renderNth_of_composable`: It is one of an argument by its number.
-/

namespace Stencil

/-- A property that text and failures have, and that is kept when one rendering
    follows another. -/
structure Rendering.Composable (P : Rendering → Prop) : Prop where
  done : P .done
  text : ∀ t, P (.text t)
  fail : ∀ e, P (.fail e)
  andThen : ∀ {r s}, P r → P s → P (r.andThen s)

section

variable {P : Rendering → Prop} {args : Arguments}

theorem Template.renderField_of_composable (hP : Rendering.Composable P)
    (h : ∀ renderer ∈ args, ∀ spec, P (renderer spec)) (next : Nat) (selector : Selector)
    (spec : Text) : P (renderField args next selector spec) := by
  unfold renderField
  -- An argument that is not there makes the rendering of a failure.
  cases hget : args[selector.index next]? with
  | none => exact hP.fail _
  | some renderer => exact h renderer (List.mem_of_getElem? hget) spec

/-- What the arguments have the template has, by induction on its pieces. -/
theorem Template.render_of_composable (hP : Rendering.Composable P)
    (h : ∀ renderer ∈ args, ∀ spec, P (renderer spec)) (next : Nat) (t : Template) :
    P (t.render args next) := by
  induction t generalizing next with
  | done => exact hP.done
  | malformed => exact hP.fail _
  | text run rest ih => exact hP.andThen (hP.text run) (ih next)
  | field selector spec rest ih =>
      exact hP.andThen (renderField_of_composable hP h next selector spec)
        (ih (selector.after next))

theorem Arguments.renderNth_of_composable (hP : Rendering.Composable P)
    (h : ∀ renderer ∈ args, ∀ spec, P (renderer spec)) (index : Nat) (spec : Text) :
    P (args.renderNth index spec) := by
  unfold renderNth
  cases hget : args[index]? with
  | none => exact hP.fail _
  | some renderer => exact h renderer (List.mem_of_getElem? hget) spec

end

end Stencil
