import Stencil.Proofs.Rendering.Honest
import Stencil.Proofs.Template.Composed

/-!
# Why a Template Fails

A template can fail by itself: it is malformed, or it asks for an argument that
is not there. Such a flaw is a matter of the template and of the number of its
arguments alone. Otherwise a template fails because the rendering of one of its
arguments does, and it then hands on the error of that argument. There is no
third way, and rendering a template adds no dishonesty of its own.

## Main definitions

* `Template.Flawed`: A template fails by itself with an error.

## Theorems

* `Rendering.composable_honest`: Putting honest renderings together is honest.
* `Template.flawed_or_argument_fails`: Where an error comes from.
-/

namespace Stencil

/-- An error of two renderings in a row is an error of one of them. -/
theorem Rendering.error_of_andThen {r s : Rendering} {e : FormatError}
    (h : (r.andThen s).outcome = .error e) : r.outcome = .error e ∨ s.outcome = .error e := by
  cases hr : r.outcome with
  | error d =>
      -- The first is then all that takes place.
      rw [andThen_of_error hr, hr] at h
      exact Or.inl h
  | ok m =>
      rw [andThen_of_ok hr] at h
      cases hs : s.outcome with
      | error d =>
          rw [hs] at h
          exact Or.inr h
      | ok n =>
          rw [hs] at h
          exact absurd h (by simp only [Except.map, reduceCtorEq, not_false_eq_true])

/-- Honest renderings put together are honest. A failure reports nothing, and so
    nothing false. -/
theorem Rendering.composable_honest : Composable Honest where
  done := clean_done.honest
  text t := (clean_text t).honest
  fail _ := honest_of_error rfl
  andThen := Honest.andThen

namespace Template

/-- The template fails by itself over `count` arguments, with `next` unnumbered
    fields before it: something in it is malformed, or a field in it asks for
    an argument past the last one. -/
inductive Flawed (count : Nat) : Nat → Template → FormatError → Prop
  | malformed (next : Nat) : Flawed count next .malformed .malformedField
  | missing {next : Nat} {selector : Selector} (spec : Text) (rest : Template) :
    count ≤ selector.index next → Flawed count next (.field selector spec rest) selector.outOfRange
  | text {next : Nat} {rest : Template} {e : FormatError} (run : Text) :
    Flawed count next rest e → Flawed count next (.text run rest) e
  | field {next : Nat} {selector : Selector} {rest : Template} {e : FormatError} (spec : Text) :
    Flawed count (selector.after next) rest e → Flawed count next (.field selector spec rest) e

theorem not_flawed_done (count next : Nat) (e : FormatError) : ¬ Flawed count next .done e := by
  intro h
  cases h

theorem Flawed.behind_text {count next : Nat} {run : Text} {rest : Template} {e : FormatError}
    (h : Flawed count next (.text run rest) e) : Flawed count next rest e := by
  cases h with
  | text _ hrest => exact hrest

/-- A field whose argument is there is not the flaw. -/
theorem Flawed.behind_field {count next : Nat} {selector : Selector} {spec : Text}
    {rest : Template} {e : FormatError} (h : Flawed count next (.field selector spec rest) e)
    (hthere : selector.index next < count) : Flawed count (selector.after next) rest e := by
  cases h with
  | missing _ _ hmissing =>
      -- Its index would have to be past the last argument.
      omega
  | field _ hrest => exact hrest

/-- A field fails because its argument is not there, or as its argument does. -/
theorem missing_or_argument_fails {args : Arguments} {next : Nat} {selector : Selector}
    {spec : Text} {e : FormatError} (h : (renderField args next selector spec).outcome = .error e) :
    (args.length ≤ selector.index next ∧ e = selector.outOfRange) ∨
      ∃ renderer ∈ args, ∃ spec, (renderer spec).outcome = .error e := by
  rw [renderField] at h
  cases hget : args[selector.index next]? with
  | none =>
      rw [hget] at h
      exact Or.inl ⟨List.getElem?_eq_none_iff.mp hget, (Except.error.inj h).symm⟩
  | some renderer =>
      rw [hget] at h
      exact Or.inr ⟨renderer, List.mem_of_getElem? hget, spec, h⟩

/-- A template that fails has a flaw with that error, or hands on the error of
    an argument. By induction on its pieces, the first that fails being the one. -/
theorem flawed_or_argument_fails {args : Arguments} {next : Nat} {t : Template} {e : FormatError}
    (h : (t.render args next).outcome = .error e) :
    Flawed args.length next t e ∨
      ∃ renderer ∈ args, ∃ spec, (renderer spec).outcome = .error e := by
  induction t generalizing next with
  | done => exact (Rendering.clean_done.ne_error h).elim
  | malformed =>
      rw [← Except.error.inj h]
      exact Or.inl (.malformed next)
  | text run rest ih =>
      rcases Rendering.error_of_andThen h with hrun | hrest
      · -- Text cannot fail.
        exact ((Rendering.clean_text run).ne_error hrun).elim
      · rcases ih hrest with hflaw | harg
        · exact Or.inl (.text run hflaw)
        · exact Or.inr harg
  | field selector spec rest ih =>
      rcases Rendering.error_of_andThen h with hfield | hrest
      · rcases missing_or_argument_fails hfield with ⟨hmissing, rfl⟩ | harg
        · exact Or.inl (.missing spec rest hmissing)
        · exact Or.inr harg
      · rcases ih hrest with hflaw | harg
        · exact Or.inl (.field spec hflaw)
        · exact Or.inr harg

end Template

end Stencil
