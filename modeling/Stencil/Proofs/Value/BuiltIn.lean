import Stencil.Proofs.Template.Flaws
import Stencil.Sink.Trace
import Stencil.Value

/-!
# Built-In Values

Nothing is assumed of a renderer that a program brings along. The values made
without one keep two promises. The count that their rendering reports is the
number of bytes it sent, capped once, whatever the sink made of them. And it
fails only where a template in it does, by a flaw of that template: a field is
malformed or asks for an argument that is not there. A fault has a template as
well, but one without a flaw, so a value that no other template stands in
cannot fail.

Both are inductions over the value. The wrappers hand on what they hold, and a
template is settled by its arguments.

## Main definitions

* `Value.Simple`: A value that holds no other.
* `Value.BuiltIn`: A value made without renderers from outside.
* `Value.Within`: A value stands in another, or is it.
* `Value.FailsBy`: A template in a value fails, by a flaw of its own.

## Theorems

* `Value.render_of_composable`: What putting renderings together keeps, values have.
* `Value.honest_render`: A built-in value reports what it sent.
* `Value.failsBy_of_error`: Where the error of a built-in value comes from.
* `Value.builtIn_contract`: Both promises, for every sink, and the first for
  whole templates too.
-/

namespace Stencil

/-- The notice of completion carries no characters. -/
theorem Rendering.Honest.finished {r : Rendering} (h : r.Honest) : r.finished.Honest := by
  intro n hn
  have hsame : r.finished.content = r.content := by
    simp only [content, Rendering.finished, List.flatMap_append, List.flatMap_cons,
      List.flatMap_nil, Event.content, List.append_nil]
  rw [h n hn, sent, sent, hsame]

/-- An honest count is the number of bytes that a sink receives. -/
theorem Rendering.Honest.count_eq {r : Rendering} (h : r.Honest) {n : Count}
    (hn : r.outcome = .ok n) :
    n = Count.ofNat (Text.bytes (received fun trace => r.into trace)).length := by
  rw [received_into]
  exact h n hn

namespace Value

/-- A value of the library that holds no other. -/
inductive Simple : Value → Prop
  | integer (n : Integer) : Simple (.integer n)
  | float (x : Binary64) : Simple (.float x)
  | char (c : Char) : Simple (.char c)
  | text (t : Text) : Simple (.text t)
  | bool (b : Bool) : Simple (.bool b)
  | unit : Simple .unit
  | cString (bytes : List UInt8) : Simple (.cString bytes)
  | region (bytes : List UInt8) : Simple (.region bytes)
  | pointer (address : Address) : Simple (.pointer address)
  | none : Simple .none

/-- A value made of the renderers of this library. Results of checks and
    members of enumerations are among them, being made of these. -/
inductive BuiltIn : Value → Prop
  | simple {v : Value} : Simple v → BuiltIn v
  | ok {v : Value} : BuiltIn v → BuiltIn (.ok v)
  | error {v : Value} : BuiltIn v → BuiltIn (.error v)
  | some {v : Value} : BuiltIn v → BuiltIn (.some v)
  | reference {v : Value} : BuiltIn v → BuiltIn (.reference v)
  | fault (location : Text) {code : Value} : BuiltIn code → BuiltIn (.fault location code)
  | nested (template : Text) {args : List Value} :
    (∀ v ∈ args, BuiltIn v) → BuiltIn (.nested template args)

/-- A value is another one, or what that one wraps has it within. -/
inductive Within (inner : Value) : Value → Prop
  | here : Within inner inner
  | ok {v : Value} : Within inner v → Within inner (.ok v)
  | error {v : Value} : Within inner v → Within inner (.error v)
  | some {v : Value} : Within inner v → Within inner (.some v)
  | reference {v : Value} : Within inner v → Within inner (.reference v)
  | fault (location : Text) {code : Value} : Within inner code → Within inner (.fault location code)
  | nested (template : Text) {args : List Value} {v : Value} :
    v ∈ args → Within inner v → Within inner (.nested template args)

/-- A template in the value fails with the error, and by a flaw of its own. -/
def FailsBy (v : Value) (e : FormatError) : Prop :=
  ∃ template args, Within (.nested template args) v ∧
    (fields template (arguments args)).outcome = .error e ∧
    Template.Flawed args.length 0 (Template.parse template) e

theorem arguments_eq_map (vs : List Value) : arguments vs = vs.map render := by
  induction vs with
  | nil => rfl
  | cons v rest ih => rw [arguments, ih, List.map_cons]

theorem length_arguments (vs : List Value) : (arguments vs).length = vs.length := by
  rw [arguments_eq_map, List.length_map]

theorem mem_arguments {renderer : Renderer} {vs : List Value} (h : renderer ∈ arguments vs) :
    ∃ v ∈ vs, v.render = renderer := by
  rw [arguments_eq_map] at h
  exact List.mem_map.mp h

/-- What the values have whatever the spec, the arguments made of them have. -/
theorem forall_arguments {P : Rendering → Prop} {vs : List Value}
    (h : ∀ v ∈ vs, ∀ spec, P (v.render spec)) :
    ∀ renderer ∈ arguments vs, ∀ spec, P (renderer spec) := by
  intro renderer hmem
  rcases mem_arguments hmem with ⟨v, hv, rfl⟩
  exact h v hv

/-- The arguments of the template of a fault are the place and the code. -/
theorem forall_faultArguments {P : Rendering → Prop} {location : Text} {code : Value}
    (htext : P (.text location)) (hcode : ∀ spec, P (code.render spec)) :
    ∀ renderer ∈ [fun _ => Rendering.text location, code.render], ∀ spec,
      P (renderer spec) := by
  intro renderer hmem spec
  simp only [List.mem_cons, List.not_mem_nil, or_false] at hmem
  rcases hmem with rfl | rfl
  · exact htext
  · exact hcode spec

/-- A property that is kept when renderings are put together is one of every value
    if it is one of those that hold no other and of the renderers from outside
    in the value. By recursion on the value: the wrappers hand on what they hold,
    and a template or a fault puts its arguments together. -/
theorem render_of_composable {P : Rendering → Prop} (hP : Rendering.Composable P)
    (hsimple : ∀ v : Value, v.Simple → ∀ spec, P (v.render spec)) (v : Value)
    (hcustom : ∀ renderer, Within (.custom renderer) v → ∀ spec, P (renderer spec))
    (spec : Text) : P (v.render spec) := by
  match v with
  | .integer n => exact hsimple _ (.integer n) spec
  | .float x => exact hsimple _ (.float x) spec
  | .char c => exact hsimple _ (.char c) spec
  | .text t => exact hsimple _ (.text t) spec
  | .bool b => exact hsimple _ (.bool b) spec
  | .unit => exact hsimple _ .unit spec
  | .cString bytes => exact hsimple _ (.cString bytes) spec
  | .region bytes => exact hsimple _ (.region bytes) spec
  | .pointer address => exact hsimple _ (.pointer address) spec
  | .none => exact hsimple _ .none spec
  | .ok v =>
      rw [render]
      exact render_of_composable hP hsimple v (fun r hin => hcustom r (.ok hin)) spec
  | .error v =>
      rw [render]
      -- The marker in front is text.
      refine hP.andThen (hP.text _) ?_
      exact render_of_composable hP hsimple v (fun r hin => hcustom r (.error hin)) spec
  | .some v =>
      rw [render]
      exact render_of_composable hP hsimple v (fun r hin => hcustom r (.some hin)) spec
  | .reference v =>
      rw [render]
      exact render_of_composable hP hsimple v (fun r hin => hcustom r (.reference hin)) spec
  | .fault location code =>
      rw [render]
      refine Template.render_of_composable hP (forall_faultArguments (hP.text _) ?_) 0 _
      exact render_of_composable hP hsimple code (fun r hin => hcustom r (.fault location hin))
  | .nested template args =>
      rw [render]
      refine Template.render_of_composable hP (forall_arguments ?_) 0 _
      intro v hv
      exact render_of_composable hP hsimple v (fun r hin => hcustom r (.nested template hv hin))
  | .custom renderer =>
      rw [render]
      exact hcustom renderer .here spec

/-- No renderer from outside stands in a built-in value. -/
theorem BuiltIn.not_within_custom {v : Value} (h : v.BuiltIn) (renderer : Renderer) :
    ¬ Within (.custom renderer) v := by
  induction h with
  -- A value that holds no other is no renderer from outside either.
  | simple h =>
      intro hin
      cases hin with
      | here => cases h
      | _ => cases h
  | ok _ ih => exact fun | .ok hin => ih hin
  | error _ ih => exact fun | .error hin => ih hin
  | some _ ih => exact fun | .some hin => ih hin
  | reference _ ih => exact fun | .reference hin => ih hin
  | fault _ _ ih => exact fun | .fault _ hin => ih hin
  | nested _ _ ih => exact fun | .nested _ hv hin => ih _ hv hin

/-- A value that holds no other ends well and reports what it sent, each by its own
    renderer. -/
theorem Simple.clean_render {v : Value} (h : v.Simple) (spec : Text) : (v.render spec).Clean := by
  cases h with
  | integer n => rw [render]; exact n.clean_render spec
  | float x => rw [render]; exact FloatText.clean_render x spec
  | char c => rw [render]; exact Rendering.clean_char c
  | text t => rw [render]; exact Rendering.clean_text t
  | bool b => rw [render]; exact Rendering.clean_text _
  | unit => rw [render]; exact Rendering.clean_done
  | cString bytes => rw [render]; exact CString.clean_render bytes spec
  | region bytes => rw [render]; exact HexDump.clean_render bytes spec
  | pointer address => rw [render]; exact (addressInteger address).clean_render spec
  | none => rw [render]; exact Rendering.clean_done

/-- A built-in value reports what it sent. -/
theorem honest_render {v : Value} (h : v.BuiltIn) (spec : Text) : (v.render spec).Honest :=
  render_of_composable Rendering.composable_honest
    (fun _ hsimple spec => (hsimple.clean_render spec).honest) v
    (fun renderer hin => absurd hin (h.not_within_custom renderer)) spec

theorem honest_fields {vs : List Value} (template : Text)
    (h : ∀ v ∈ vs, ∀ spec, (v.render spec).Honest) :
    (fields template (arguments vs)).Honest :=
  Template.render_of_composable Rendering.composable_honest (forall_arguments h) 0 _

theorem faultTemplate_eq :
    faultTemplate = [':', ':', 'E', 'r', 'r', '\\', '{', 'a', 't', ' ', '{', '}', ':', ' ', '{',
      '}', '}'] := by
  decide

/-- The template of a fault: text with two unnumbered fields in it. -/
theorem parse_faultTemplate :
    Template.parse faultTemplate =
      .text [':', ':', 'E', 'r', 'r'] (.text ['{', 'a', 't', ' ']
        (.field .implicit [] (.text [':', ' '] (.field .implicit [] (.text ['}'] .done))))) := by
  rw [faultTemplate_eq]
  simp [Template.parse, Template.literal, Template.opened, Template.flush]

/-- The template of a fault is well-formed, and its arguments are there. -/
theorem not_flawed_faultTemplate (e : FormatError) :
    ¬ Template.Flawed 2 0 (Template.parse faultTemplate) e := by
  intro h
  -- Its two fields have an argument each, and the rest is text.
  rw [parse_faultTemplate] at h
  have hsecond := (h.behind_text.behind_text.behind_field (by decide)).behind_text
  exact Template.not_flawed_done _ _ _ (hsecond.behind_field (by decide)).behind_text

/-- A template that fails in a value fails in whatever has the value within. -/
theorem FailsBy.mono {inner outer : Value} {e : FormatError} (h : inner.FailsBy e)
    (hin : ∀ v, Within v inner → Within v outer) : outer.FailsBy e := by
  rcases h with ⟨template, args, hwithin, hfails⟩
  exact ⟨template, args, hin _ hwithin, hfails⟩

/-- A nested template fails by a flaw of its own, or by one in an argument. -/
theorem failsBy_nested {template : Text} {vs : List Value} {e : FormatError}
    (h : (fields template (arguments vs)).outcome = .error e)
    (ih : ∀ v ∈ vs, ∀ spec, (v.render spec).outcome = .error e → v.FailsBy e) :
    FailsBy (.nested template vs) e := by
  rcases Template.flawed_or_argument_fails h with hflaw | ⟨renderer, hmem, spec, hrender⟩
  · rw [length_arguments] at hflaw
    exact ⟨template, vs, .here, h, hflaw⟩
  -- The error comes from an argument, so the flaw is within that one.
  · rcases mem_arguments hmem with ⟨v, hv, rfl⟩
    exact (ih v hv spec hrender).mono (fun _ hin => .nested template hv hin)

/-- The error of a fault is that of its code. -/
theorem error_of_fault {location : Text} {code : Value} {spec : Text} {e : FormatError}
    (h : ((Value.fault location code).render spec).outcome = .error e) :
    ∃ spec, (code.render spec).outcome = .error e := by
  rw [render] at h
  rcases Template.flawed_or_argument_fails h with hflaw | ⟨renderer, hmem, spec, hrender⟩
  · exact (not_flawed_faultTemplate e hflaw).elim
  · simp only [List.mem_cons, List.not_mem_nil, or_false] at hmem
    rcases hmem with rfl | rfl
    · exact ((Rendering.clean_text location).ne_error hrender).elim
    · exact ⟨spec, hrender⟩

/-- A built-in value fails only by a template in it, by induction on how it is
    made. -/
theorem failsBy_of_error {v : Value} (h : v.BuiltIn) {spec : Text} {e : FormatError}
    (he : (v.render spec).outcome = .error e) : v.FailsBy e := by
  induction h generalizing spec with
  | simple h => exact ((h.clean_render spec).ne_error he).elim
  | ok _ ih => rw [render] at he; exact (ih he).mono (fun _ => .ok)
  | some _ ih => rw [render] at he; exact (ih he).mono (fun _ => .some)
  | reference _ ih => rw [render] at he; exact (ih he).mono (fun _ => .reference)
  | error _ ih =>
      -- The marker in front cannot fail.
      rw [render] at he
      rcases Rendering.error_of_andThen he with hmark | hinner
      · exact ((Rendering.clean_text _).ne_error hmark).elim
      · exact (ih hinner).mono (fun _ => .error)
  | fault location _ ih =>
      rcases error_of_fault he with ⟨spec, hcode⟩
      exact (ih hcode).mono (fun _ => .fault location)
  | nested template _ ih =>
      rw [render] at he
      exact failsBy_nested he (fun v hv spec => ih v hv)

/-- What is promised of built-in values, whatever the spec and the sink. The sink
    takes the calls that a trace hears in its place. A count that is reported is the
    number of bytes in them, whether or not the sink kept them; an error comes from a
    template that stands in the value and has a flaw, and without such a template
    there is no error. The same is true of the counts of whole templates over
    built-in values, completed or not. -/
theorem builtIn_contract :
    (∀ v : Value, v.BuiltIn → ∀ (spec : Text) {σ : Type} [Sink σ] (sink : σ),
      Sink.acceptAll sink (heard fun trace => (v.render spec).into trace) =
        ((v.render spec).into sink).1 ∧
      (∀ n, ((v.render spec).into sink).2 = .ok n →
        n = Count.ofNat
          (Text.bytes (received fun trace => (v.render spec).into trace)).length) ∧
      (∀ e, ((v.render spec).into sink).2 = .error e → v.FailsBy e) ∧
      ((∀ template args, ¬ Within (.nested template args) v) →
        ∃ n, ((v.render spec).into sink).2 = .ok n)) ∧
    (∀ (template : Text) (vs : List Value), (∀ v ∈ vs, v.BuiltIn) →
      ∀ {σ : Type} [Sink σ] (sink : σ),
      Sink.acceptAll sink (heard fun trace => writeFields trace template (arguments vs)) =
        (writeFields sink template (arguments vs)).1 ∧
      (∀ n, (writeFields sink template (arguments vs)).2 = .ok n →
        n = Count.ofNat
          (Text.bytes (received fun trace => writeFields trace template (arguments vs))).length) ∧
      Sink.acceptAll sink (heard fun trace => formatTo trace template (arguments vs)) =
        (formatTo sink template (arguments vs)).1 ∧
      (∀ n, (formatTo sink template (arguments vs)).2 = .ok n →
        n = Count.ofNat
          (Text.bytes (received fun trace => formatTo trace template (arguments vs))).length)) := by
  refine ⟨?_, ?_⟩
  · intro v hv spec σ _ sink
    refine ⟨acceptAll_heard sink _, fun n => (honest_render hv spec).count_eq,
      fun e he => failsBy_of_error hv he, ?_⟩
    intro hplain
    cases hout : (v.render spec).outcome with
    | ok n => exact ⟨n, hout⟩
    | error e =>
        -- An error would come from a template in the value.
        rcases failsBy_of_error hv hout with ⟨template, args, hwithin, -⟩
        exact (hplain template args hwithin).elim
  · intro template vs hvs σ _ sink
    have hfields := honest_fields template (fun v hv => honest_render (hvs v hv))
    have hformat : (format template (arguments vs)).Honest := hfields.finished
    exact ⟨acceptAll_heard sink _, fun n => hfields.count_eq, acceptAll_heard sink _,
      fun n => hformat.count_eq⟩

end Value

end Stencil
