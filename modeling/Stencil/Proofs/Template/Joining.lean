import Stencil.Proofs.Sink.Truncation
import Stencil.Proofs.Template.Parsing

/-!
# Templates Behind One Another

Two templates written behind one another are rendered behind one another. This is
not true of the calls that are made, as the text at the end of the first and the
text at the beginning of the second become one text, and may be sent as one run.
It is true of what is sent and of how it ends, and that is all a sink can show
that keeps everything.

Two things can go wrong at the seam. A backslash at the end of the first template
would escape a brace at the beginning of the second. And unnumbered fields count
on, so that those of the second would get other arguments than they get alone,
unless there are none in one of the two. Nothing else is carried over: the first
template has to be rendered successfully, which means that no field of it is left
open.

Readings are joined here, and not runs of the scanner. What is in hand at the seam
is then the last text of one reading and the first of the other.

## Main definitions

* `Rendering.Agrees`: Two renderings send the same text and end the same way.
* `Template.followedBy`: A template with another one behind it.
* `Template.after`: How many unnumbered fields a template counts.
* `Template.ByNumber`: Every field selects its argument by number.
* `Reading.prepend`, `Reading.join`: A reading behind a text, and behind a reading.
* `HasUnnumbered`: There is an unnumbered field in a template.
* `Sink.KeepsAll`: A sink shows all that is sent.

## Theorems

* `unescape_append`: Texts in a row mean what they mean one by one.
* `Template.render_followedBy`: Templates in a row are rendered in a row.
* `Reading.source_join`, `Reading.wellFormed_join`: Joined readings are a reading
  of the two sources in a row.
* `Reading.agrees_join`: It asks for what the two ask for.
* `writeFields_append`: Rendering two templates as one, and what a failing field
  leaves behind.
-/

namespace Stencil

namespace Rendering

/-- Two renderings send the same text and end the same way. The calls in which
    the text is sent may differ. -/
structure Agrees (r s : Rendering) : Prop where
  content : r.content = s.content
  outcome : r.outcome = s.outcome

theorem Agrees.refl (r : Rendering) : r.Agrees r := ⟨rfl, rfl⟩

/-- Agreeing in both parts is agreeing in the whole, as they stop at the same failure.
    -/
theorem Agrees.andThen {r r' s s' : Rendering} (hr : r.Agrees r') (hs : s.Agrees s') :
    (r.andThen s).Agrees (r'.andThen s') := by
  cases hout : r'.outcome with
  | error e =>
      -- Neither of the second parts takes place.
      rw [andThen_of_error (hr.outcome.trans hout), andThen_of_error hout]
      exact hr
  | ok m =>
      refine ⟨?_, ?_⟩
      · rw [content_andThen_of_ok (hr.outcome.trans hout), content_andThen_of_ok hout,
          hr.content, hs.content]
      · rw [andThen_of_ok (hr.outcome.trans hout), andThen_of_ok hout, hs.outcome]

/-- How a text is divided into runs does not show. -/
theorem agrees_texts {ss ts : List Text} (h : ss.flatten = ts.flatten) :
    (concat (ss.map text)).Agrees (concat (ts.map text)) := by
  rw [concat_texts, concat_texts]
  exact ⟨by simp only [content, flatMap_texts, h], by rw [h]⟩

theorem outcome_andThen_fail (r : Rendering) (e : FormatError) (n : Count) :
    (r.andThen (fail e)).outcome ≠ .ok n := by
  cases hr : r.outcome with
  | error d =>
      rw [andThen_of_error hr, hr]
      simp
  | ok m =>
      rw [andThen_of_ok hr]
      simp [fail, Except.map]

end Rendering

/-- The braces of two texts in a row are escaped as they are in each of them. -/
theorem Escaped.append {s t : Text} (hs : Escaped s) (ht : Escaped t) : Escaped (s ++ t) := by
  intro before after h
  rcases List.append_eq_append_iff.mp h with ⟨front, hfront, hback⟩ | ⟨front, hfront, hback⟩
  · -- The brace is in the second text, and so is the backslash in front of it.
    rcases ht front after hback with ⟨rest, hrest⟩
    exact ⟨s ++ rest, by rw [hfront, hrest, List.append_assoc]⟩
  · cases front with
    | nil =>
        -- The second text would begin with the brace.
        rw [List.nil_append] at hback
        exact absurd rfl (Escaped.head_ne (hback ▸ ht))
    | cons c front =>
        rw [List.cons_append, List.cons.injEq] at hback
        exact hs before front (by rw [hfront, hback.1])

theorem EndsInBackslash.of_append {s t : Text} (h : EndsInBackslash (s ++ t)) (ht : t ≠ []) :
    EndsInBackslash t := by
  rcases h with ⟨rest, hrest⟩
  rcases List.eq_nil_or_concat t with rfl | ⟨front, c, rfl⟩
  · exact absurd rfl ht
  -- The last character of both is the last one of the second.
  · rw [List.concat_eq_append, ← List.append_assoc] at hrest
    rw [List.concat_eq_append]
    exact ⟨front, by rw [List.append_inj_right' hrest rfl]⟩

/-- A text that may stand in a template does not begin with a brace, so a backslash
    in front of it escapes nothing. By induction on what is in front. -/
theorem unescape_append {t : Text} (ht : Escaped t) (s : Text) :
    unescape (s ++ t) = unescape s ++ unescape t := by
  induction s using unescape.induct with
  | case1 rest ih => simp only [List.cons_append, unescape, ih]
  | case2 c rest hne ih =>
      have hcons : ∀ after, c = '\\' → rest ++ t = '{' :: after → False := by
        intro after hc hrest
        cases rest with
        | nil =>
            -- Only here the seam is next to the backslash.
            rw [List.nil_append] at hrest
            exact Escaped.head_ne (hrest ▸ ht) rfl
        | cons d rest =>
            rw [List.cons_append, List.cons.injEq] at hrest
            exact hne rest hc (by rw [hrest.1])
      rw [List.cons_append, unescape_cons hcons, ih, unescape_cons hne, List.cons_append]
  | case3 => rfl

namespace Template

/-- A template with another one behind it. Nothing comes behind a malformed field. -/
def followedBy : Template → Template → Template
  | .done, t => t
  | .malformed, _ => .malformed
  | .text run rest, t => .text run (rest.followedBy t)
  | .field selector spec rest, t => .field selector spec (rest.followedBy t)

/-- How many unnumbered fields there are up to the end of a template, when `next`
    came before it. -/
def after (next : Nat) : Template → Nat
  | .done => next
  | .malformed => next
  | .text _ rest => after next rest
  | .field selector _ rest => after (selector.after next) rest

/-- Every field selects its argument by number. -/
def ByNumber : Template → Prop
  | .done => True
  | .malformed => True
  | .text _ rest => rest.ByNumber
  | .field selector _ rest => selector ≠ .implicit ∧ rest.ByNumber

instance decidableByNumber : (t : Template) → Decidable t.ByNumber
  | .done => isTrue trivial
  | .malformed => isTrue trivial
  | .text _ rest => decidableByNumber rest
  | .field selector _ rest =>
    haveI := decidableByNumber rest
    inferInstanceAs (Decidable (selector ≠ .implicit ∧ rest.ByNumber))

/-- Templates behind one another are rendered behind one another, the second counting
    on from the first. -/
theorem render_followedBy (args : Arguments) (next : Nat) (s t : Template) :
    (s.followedBy t).render args next =
      (s.render args next).andThen (t.render args (s.after next)) := by
  induction s generalizing next with
  | done => exact (Rendering.done_andThen _).symm
  | malformed => rfl
  | text run rest ih => simp only [followedBy, render, after, ih, Rendering.andThen_assoc]
  | field selector spec rest ih =>
      simp only [followedBy, render, after, ih, Rendering.andThen_assoc]

/-- A template without unnumbered fields counts none. -/
theorem after_of_byNumber {t : Template} (h : t.ByNumber) (next : Nat) : t.after next = next := by
  induction t with
  | done => rfl
  | malformed => rfl
  | text run rest ih => exact ih h
  | field selector spec rest ih =>
      cases selector with
      | explicit n => exact ih h.2
      | implicit => exact absurd rfl h.1

/-- Nor does it matter to it how many came before. -/
theorem render_of_byNumber {t : Template} (h : t.ByNumber) (args : Arguments) (m n : Nat) :
    t.render args m = t.render args n := by
  induction t with
  | done => rfl
  | malformed => rfl
  | text run rest ih => rw [render, render, ih h]
  | field selector spec rest ih =>
      cases selector with
      -- A number selects the same argument wherever one is.
      | explicit k =>
          have hrest := ih h.2
          simp only [render, Selector.after, hrest]
          rfl
      | implicit => exact absurd rfl h.1

theorem behind_followedBy (ts : List Text) (s t : Template) :
    (behind ts s).followedBy t = behind ts (s.followedBy t) := by
  induction ts with
  | nil => rfl
  | cons u ts ih => exact congrArg (Template.text u) ih

theorem byNumber_behind (ts : List Text) (t : Template) : (behind ts t).ByNumber ↔ t.ByNumber := by
  induction ts with
  | nil => exact Iff.rfl
  | cons u ts ih => exact ih

end Template

namespace Reading

theorem fieldsSource_append (fs gs : List (Text × Hole)) :
    fieldsSource (fs ++ gs) = fieldsSource fs ++ fieldsSource gs := by
  induction fs with
  | nil => rfl
  | cons f fs ih =>
      rcases f with ⟨text, hole⟩
      simp only [List.cons_append, fieldsSource, ih, List.append_assoc]

theorem fieldsTemplate_append (fs gs : List (Text × Hole)) (ending : Template) :
    fieldsTemplate (fs ++ gs) ending = fieldsTemplate fs (fieldsTemplate gs ending) := by
  induction fs with
  | nil => rfl
  | cons f fs ih =>
      rcases f with ⟨text, hole⟩
      simp only [List.cons_append, fieldsTemplate, ih]

theorem fieldsTemplate_followedBy (fs : List (Text × Hole)) (ending t : Template) :
    (fieldsTemplate fs ending).followedBy t = fieldsTemplate fs (ending.followedBy t) := by
  induction fs with
  | nil => rfl
  | cons f fs ih =>
      rcases f with ⟨text, hole⟩
      simp only [fieldsTemplate, Template.behind_followedBy, Template.followedBy, ih]

/-- The selectors of a parsed template are those of the fields that were read. -/
theorem byNumber_template (r : Reading) :
    r.template.ByNumber ↔ ∀ f ∈ r.fields, f.2.unnumbered = false := by
  -- Behind the last field there is text, and perhaps a malformed field.
  have hend : (Template.behind (runs r.last) (brokenTemplate r.broken)).ByNumber := by
    rw [Template.byNumber_behind]
    cases r.broken <;> exact trivial
  have hselector : ∀ hole : Hole, hole.selector ≠ .implicit ↔ hole.unnumbered = false := by
    intro hole
    unfold Hole.selector
    cases hole.unnumbered <;> simp
  unfold template
  induction r.fields with
  | nil => simpa [fieldsTemplate] using hend
  | cons f fields ih =>
      rcases f with ⟨text, hole⟩
      simp only [fieldsTemplate, Template.byNumber_behind, Template.ByNumber, hselector, ih,
        List.forall_mem_cons]

/-- A reading with more text in front. -/
def prepend (text : Text) (r : Reading) : Reading :=
  match r.fields with
  | [] => ⟨[], text ++ r.last, r.broken⟩
  | (first, hole) :: rest => ⟨(text ++ first, hole) :: rest, r.last, r.broken⟩

/-- A reading behind another one. The last text of the one and the first of the
    other are one text. -/
def join (r s : Reading) : Reading :=
  ⟨r.fields ++ (s.prepend r.last).fields, (s.prepend r.last).last, (s.prepend r.last).broken⟩

theorem source_prepend (text : Text) (r : Reading) :
    (r.prepend text).source = text ++ r.source := by
  rcases r with ⟨fields, last, broken⟩
  cases fields with
  | nil => simp only [prepend, source, fieldsSource, List.nil_append, List.append_assoc]
  | cons f fields => simp only [prepend, source, fieldsSource, List.append_assoc]

/-- What is written down is one source behind the other. -/
theorem source_join {r : Reading} (hclosed : r.broken = none) (s : Reading) :
    (r.join s).source = r.source ++ s.source := by
  have hprepend := source_prepend r.last s
  unfold source at hprepend ⊢
  rw [join, fieldsSource_append, List.append_assoc, hprepend, hclosed, brokenSource,
    List.append_nil, List.append_assoc]

/-- A text still leads up to a brace with more text in front of it. Only where there
    was no text does it matter how the new one ends. -/
theorem Leads.append {s t : Text} (hs : Escaped s) (ht : Leads t)
    (hseam : t = [] → ¬ EndsInBackslash s) : Leads (s ++ t) := by
  refine ⟨hs.append ht.escaped, ?_⟩
  intro hend
  by_cases hnil : t = []
  -- Without text of its own it is the first text that leads up to the brace.
  · rw [hnil, List.append_nil] at hend
    exact hseam hnil hend
  · exact ht.open_end (hend.of_append hnil)

/-- The brace that is not escaped by the text in front is the first one of the source,
    be it that of a field or of what is no field. -/
theorem wellFormed_prepend {text : Text} {r : Reading} (htext : Escaped text) (hr : r.WellFormed)
    (hseam : ¬ (EndsInBackslash text ∧ r.source.head? = some '{')) :
    (r.prepend text).WellFormed := by
  rcases r with ⟨fields, last, broken⟩
  cases fields with
  | nil =>
      refine ⟨hr.leads, hr.holes, htext.append hr.last, ?_⟩
      intro rest hrest
      have hbroken := hr.broken rest hrest
      refine ⟨Leads.append htext hbroken.1 ?_, hbroken.2⟩
      intro hnil hend
      have hsome : broken = some rest := hrest
      have hlast : last = [] := hnil
      exact hseam ⟨hend, by rw [hsome, hlast]; rfl⟩
  | cons f fields =>
      rcases f with ⟨first, hole⟩
      have hleads := List.forall_mem_cons.mp hr.leads
      refine ⟨List.forall_mem_cons.mpr ⟨Leads.append htext hleads.1 ?_, hleads.2⟩,
        List.forall_mem_cons.mpr (List.forall_mem_cons.mp hr.holes), hr.last, hr.broken⟩
      intro hnil hend
      have hfirst : first = [] := hnil
      exact hseam ⟨hend, by rw [hfirst]; rfl⟩

/-- Joined readings may be written, if no brace is escaped by the seam. -/
theorem wellFormed_join {r s : Reading} (hr : r.WellFormed) (hs : s.WellFormed)
    (hclosed : r.broken = none)
    (hseam : ¬ (EndsInBackslash r.source ∧ s.source.head? = some '{')) :
    (r.join s).WellFormed := by
  -- The source ends as its last text does.
  have hsuffix : r.last <:+ r.source := by
    unfold source
    rw [hclosed, brokenSource, List.append_nil]
    exact List.suffix_append _ _
  have hback := wellFormed_prepend hr.last hs (fun h => hseam ⟨h.1.of_suffix hsuffix, h.2⟩)
  exact ⟨List.forall_mem_append.mpr ⟨hr.leads, hback.leads⟩,
    List.forall_mem_append.mpr ⟨hr.holes, hback.holes⟩, hback.last, hback.broken⟩

theorem reads_join {r s : Reading} {first second : Text} (hr : r.Reads first) (hs : s.Reads second)
    (hclosed : r.broken = none) (hseam : ¬ (EndsInBackslash first ∧ second.head? = some '{')) :
    (r.join s).Reads (first ++ second) := by
  rw [← hr.2, ← hs.2] at hseam
  exact ⟨wellFormed_join hr.1 hs.1 hclosed hseam, by rw [source_join hclosed, hr.2, hs.2]⟩

/-- Two texts in a row are sent as the same text, be it in other runs. -/
theorem agrees_behind {t : Text} (ht : Escaped t) (s : Text) (args : Arguments) (next : Nat)
    (rest : Template) :
    ((Template.behind (runs (s ++ t)) rest).render args next).Agrees
      ((Template.behind (runs s) (Template.behind (runs t) rest)).render args next) := by
  rw [← Template.behind_append, Template.render_behind, Template.render_behind]
  refine Rendering.Agrees.andThen (Rendering.agrees_texts ?_) (.refl _)
  -- The runs differ at the seam, and what they mean does not.
  rw [List.flatten_append, flatten_runs, flatten_runs, flatten_runs, unescape_append ht]

theorem agrees_prepend (text : Text) {r : Reading} (hr : r.WellFormed) (args : Arguments)
    (next : Nat) :
    ((r.prepend text).template.render args next).Agrees
      ((Template.behind (runs text) r.template).render args next) := by
  rcases r with ⟨fields, last, broken⟩
  cases fields with
  | nil => exact agrees_behind hr.last text args next _
  | cons f fields =>
      exact agrees_behind (List.forall_mem_cons.mp hr.leads).1.escaped text args next _

/-- Joined readings ask for what the two ask for, one behind the other. The second
    counts its unnumbered fields on from the first. -/
theorem agrees_join {r s : Reading} (hclosed : r.broken = none) (hs : s.WellFormed)
    (args : Arguments) (next : Nat) :
    ((r.join s).template.render args next).Agrees
      ((r.template.render args next).andThen
        (s.template.render args (r.template.after next))) := by
  -- Both go through the fields of the first, and differ in the text at the seam.
  have hjoined : (r.join s).template =
      (fieldsTemplate r.fields .done).followedBy (s.prepend r.last).template := by
    rw [fieldsTemplate_followedBy, Template.followedBy]
    exact fieldsTemplate_append _ _ _
  have hapart : r.template.followedBy s.template =
      (fieldsTemplate r.fields .done).followedBy (Template.behind (runs r.last) s.template) := by
    rw [template, hclosed, fieldsTemplate_followedBy, fieldsTemplate_followedBy,
      Template.behind_followedBy]
    rfl
  rw [← Template.render_followedBy, hapart, hjoined, Template.render_followedBy,
    Template.render_followedBy]
  exact Rendering.Agrees.andThen (.refl _) (agrees_prepend r.last hs args _)

theorem fields_eq_render {r : Reading} {source : Text} (hr : r.Reads source) (args : Arguments) :
    Stencil.fields source args = r.template.render args 0 := by
  rw [Stencil.fields, ← hr.2, parse_source hr.1]

/-- A template with a malformed field is not rendered successfully. -/
theorem closed_of_ok {r : Reading} {source : Text} (hr : r.Reads source) {args : Arguments}
    {n : Count} (h : (Stencil.fields source args).outcome = .ok n) : r.broken = none := by
  cases hbroken : r.broken with
  | none => rfl
  | some rest =>
      -- The malformed field stands behind everything else.
      have hfail : r.template =
          (fieldsTemplate r.fields (Template.behind (runs r.last) .done)).followedBy
            .malformed := by
        rw [template, hbroken, fieldsTemplate_followedBy, Template.behind_followedBy]
        rfl
      rw [fields_eq_render hr, hfail, Template.render_followedBy] at h
      exact absurd h (Rendering.outcome_andThen_fail _ _ n)

/-- Templates in a row ask for what they ask for alone, the second with the count of
    the first. -/
theorem fields_append {r s : Reading} {first second : Text} (hr : r.Reads first)
    (hs : s.Reads second) (hclosed : r.broken = none)
    (hseam : ¬ (EndsInBackslash first ∧ second.head? = some '{')) (args : Arguments) :
    (Stencil.fields (first ++ second) args).Agrees
      ((Stencil.fields first args).andThen
        (s.template.render args (r.template.after 0))) := by
  rw [fields_eq_render (reads_join hr hs hclosed hseam), fields_eq_render hr]
  exact agrees_join hclosed hs.1 args 0

/-- Where a template fails without a malformed field, nothing behind it matters. -/
theorem fields_append_of_error {r : Reading} {first : Text} (hr : r.Reads first)
    (hclosed : r.broken = none) (hend : ¬ EndsInBackslash first) {args : Arguments}
    {e : FormatError} (h : (Stencil.fields first args).outcome = .error e) (rest : Text) :
    (Stencil.fields (first ++ rest) args).Agrees (Stencil.fields first args) := by
  rcases exists_reads rest with ⟨s, hs⟩
  have happend := fields_append hr hs hclosed (fun hseam => hend hseam.1) args
  rwa [Rendering.andThen_of_error h] at happend

theorem leads_nil : Leads [] := by
  refine ⟨?_, ?_⟩
  -- Without text there is no brace, and no backslash at the end.
  · intro before after hsource
    exact absurd hsource (by simp)
  · rintro ⟨rest, hrest⟩
    exact absurd hrest (by simp)

/-- A field alone is read as a field without text around it. -/
theorem reads_field {hole : Hole} (h : hole.WellFormed) :
    (⟨[([], hole)], [], none⟩ : Reading).Reads ('{' :: (hole.inside ++ ['}'])) := by
  refine ⟨⟨?_, ?_, leads_nil.escaped, by simp⟩, ?_⟩
  · simpa using leads_nil
  · simpa using h
  · simp [source, fieldsSource, brokenSource]

theorem reads_brace {rest : Text} (h : Broken rest) :
    (⟨[], [], some rest⟩ : Reading).Reads ('{' :: rest) := by
  refine ⟨⟨by simp, by simp, leads_nil.escaped, ?_⟩, rfl⟩
  intro after hafter
  rw [← Option.some.inj hafter]
  exact ⟨leads_nil, h⟩

end Reading

/-- There is an unnumbered field in a template. -/
def HasUnnumbered (source : Text) : Prop :=
  ∃ r : Reading, r.Reads source ∧ ∃ f ∈ r.fields, f.2.unnumbered = true

/-- Whether there is an unnumbered field can be computed from what the template parses
    to. -/
theorem byNumber_parse_iff (source : Text) :
    (Template.parse source).ByNumber ↔ ¬ HasUnnumbered source := by
  rcases Reading.exists_reads source with ⟨r, hr⟩
  rw [← hr.2, Reading.parse_source hr.1, Reading.byNumber_template, hr.2]
  refine ⟨?_, ?_⟩
  · rintro h ⟨s, hs, f, hf, hunnumbered⟩
    -- There is no other reading.
    rw [Reading.reads_unique hs hr] at hf
    rw [h f hf] at hunnumbered
    exact Bool.false_ne_true hunnumbered
  · intro h f hf
    by_contra hunnumbered
    exact h ⟨r, hr, f, hf, by simpa using hunnumbered⟩

/-- With unnumbered fields in one of two templates at most, the second is rendered
    behind the first as it is alone. -/
theorem agrees_fields_append {first second : Text} {args : Arguments} {n : Count}
    (hfirst : (fields first args).outcome = .ok n)
    (hcount : ¬ (HasUnnumbered first ∧ HasUnnumbered second))
    (hseam : ¬ (EndsInBackslash first ∧ second.head? = some '{')) :
    (fields (first ++ second) args).Agrees ((fields first args).andThen (fields second args)) := by
  rcases Reading.exists_reads first with ⟨r, hr⟩
  rcases Reading.exists_reads second with ⟨s, hs⟩
  have hrest : s.template.render args (r.template.after 0) = fields second args := by
    rw [Reading.fields_eq_render hs]
    by_cases hnumbers : HasUnnumbered first
    · -- The second template does not count, so it may start anywhere.
      have hsecond := (byNumber_parse_iff second).mpr (fun h => hcount ⟨hnumbers, h⟩)
      rw [← hs.2, Reading.parse_source hs.1] at hsecond
      exact Template.render_of_byNumber hsecond args _ 0
    · -- The first template does not count, so the second starts at zero.
      have hnone := (byNumber_parse_iff first).mpr hnumbers
      rw [← hr.2, Reading.parse_source hr.1] at hnone
      rw [Template.after_of_byNumber hnone]
  have hjoin := Reading.fields_append hr hs (Reading.closed_of_ok hr hfirst) hseam args
  rwa [hrest] at hjoin

/-- A field that fails behind a template that does not. What follows it is not
    looked at. -/
theorem agrees_failing_field {first : Text} {args : Arguments} {n : Count}
    (hfirst : (fields first args).outcome = .ok n) (hend : ¬ EndsInBackslash first)
    {hole : Hole} (hhole : hole.WellFormed) {e : FormatError}
    (hfail : (fields (first ++ '{' :: (hole.inside ++ ['}'])) args).outcome = .error e)
    (rest : Text) :
    (fields (first ++ '{' :: (hole.inside ++ '}' :: rest)) args).Agrees
      (fields (first ++ '{' :: (hole.inside ++ ['}'])) args) := by
  rcases Reading.exists_reads first with ⟨r, hr⟩
  have hreads := Reading.reads_join hr (Reading.reads_field hhole)
    (Reading.closed_of_ok hr hfirst) (fun hseam => hend hseam.1)
  -- The closing brace of the field is the last character, and no backslash.
  have hclose : ¬ EndsInBackslash (first ++ '{' :: (hole.inside ++ ['}'])) := by
    rintro ⟨front, hfront⟩
    have hlast : (first ++ '{' :: hole.inside) ++ ['}'] = front ++ ['\\'] := by
      rw [← hfront, List.append_assoc, List.cons_append]
    exact absurd (List.append_inj_right' hlast rfl) (by decide)
  have happend := Reading.fields_append_of_error hreads rfl hclose hfail rest
  rwa [List.append_assoc, List.cons_append, List.append_assoc, List.singleton_append] at happend

/-- A brace that opens no field, behind a template that does not fail. -/
theorem agrees_malformed_field {first : Text} {args : Arguments} {n : Count}
    (hfirst : (fields first args).outcome = .ok n) (hend : ¬ EndsInBackslash first)
    {rest : Text} (hrest : Reading.Broken rest) :
    (fields (first ++ '{' :: rest) args).Agrees
      ((fields first args).andThen (.fail .malformedField)) := by
  rcases Reading.exists_reads first with ⟨r, hr⟩
  exact Reading.fields_append hr (Reading.reads_brace hrest) (Reading.closed_of_ok hr hfirst)
    (fun hseam => hend hseam.1) args

/-- A sink that keeps everything: what it shows grows by all that is sent. -/
def Sink.KeepsAll {σ : Type} [Sink σ] (shows : σ → Text) (sink : σ) : Prop :=
  ∀ events, shows (acceptAll sink events) = shows sink ++ sentText events

/-- What such a sink shows of a rendering is what it sends. -/
theorem Sink.KeepsAll.shows_into {σ : Type} [Sink σ] {shows : σ → Text} {sink : σ}
    (h : KeepsAll shows sink) (r : Rendering) :
    shows (r.into sink).1 = shows sink ++ r.content :=
  h r.events

theorem Writer.keepsAll_unlimited : Sink.KeepsAll Writer.text Writer.unlimited :=
  Writer.text_unlimited

/-- Rendering two templates as one, for a sink that keeps everything. Let the first be
    rendered successfully, let there be unnumbered fields in one of them at most,
    and let no backslash at the end of the first meet a brace at the beginning of
    the second. Then the sink shows what it shows when they are rendered one after
    the other, and the counts add up, or the second fails as it does alone. What is
    shown when a field fails, well-formed or not, does not depend on what follows
    the field. -/
theorem writeFields_append {σ : Type} [Sink σ] {shows : σ → Text} {sink : σ}
    (hkeeps : Sink.KeepsAll shows sink) {first second : Text} {args : Arguments} {n : Count}
    (hfirst : (writeFields sink first args).2 = .ok n)
    (hcount : ¬ (HasUnnumbered first ∧ HasUnnumbered second))
    (hseam : ¬ (EndsInBackslash first ∧ second.head? = some '{')) :
    shows (writeFields sink (first ++ second) args).1 =
        shows (writeFields (writeFields sink first args).1 second args).1 ∧
      (∀ m, (writeFields sink second args).2 = .ok m →
        (writeFields sink (first ++ second) args).2 = .ok (n + m)) ∧
      (∀ e, (writeFields sink second args).2 = .error e →
        (writeFields sink (first ++ second) args).2 = .error e) ∧
      (¬ EndsInBackslash first → ∀ hole : Hole, hole.WellFormed → ∀ e,
        (writeFields sink (first ++ '{' :: (hole.inside ++ ['}'])) args).2 = .error e →
        ∀ rest, (writeFields sink (first ++ '{' :: (hole.inside ++ '}' :: rest)) args).2 =
            .error e ∧
          shows (writeFields sink (first ++ '{' :: (hole.inside ++ '}' :: rest)) args).1 =
            shows (writeFields sink (first ++ '{' :: (hole.inside ++ ['}'])) args).1) ∧
      (¬ EndsInBackslash first → ∀ rest, Reading.Broken rest →
        (writeFields sink (first ++ '{' :: rest) args).2 = .error .malformedField ∧
          shows (writeFields sink (first ++ '{' :: rest) args).1 =
            shows (writeFields sink first args).1) := by
  have hok : (fields first args).outcome = .ok n := hfirst
  have happend := agrees_fields_append hok hcount hseam
  have houtcome : (fields (first ++ second) args).outcome =
      (fields second args).outcome.map (n + ·) := by
    rw [happend.outcome, Rendering.andThen_of_ok hok]
  have hshows : ∀ template, shows (writeFields sink template args).1 =
      shows sink ++ (fields template args).content :=
    fun template => hkeeps.shows_into (fields template args)
  refine ⟨?_, ?_, ?_, ?_, ?_⟩
  · -- Going on with the sink is giving it the calls of both in a row.
    have hboth := hkeeps ((fields first args).events ++ (fields second args).events)
    rw [Sink.acceptAll_append] at hboth
    rw [hshows, happend.content, Rendering.content_andThen_of_ok hok]
    refine Eq.trans ?_ hboth.symm
    rw [sentText, List.flatMap_append]
    rfl
  · intro m hm
    have hsecond : (fields second args).outcome = .ok m := hm
    exact houtcome.trans (by rw [hsecond]; rfl)
  · intro e he
    have hsecond : (fields second args).outcome = .error e := he
    exact houtcome.trans (by rw [hsecond]; rfl)
  · intro hend hole hhole e hfail rest
    have hfield := agrees_failing_field hok hend hhole hfail rest
    exact ⟨hfield.outcome.trans hfail, by rw [hshows, hshows, hfield.content]⟩
  · intro hend rest hrest
    have hbroken := agrees_malformed_field hok hend hrest
    refine ⟨hbroken.outcome.trans ?_, ?_⟩
    · rw [Rendering.andThen_of_ok hok]
      rfl
    · rw [hshows, hshows, hbroken.content, Rendering.content_andThen_of_ok hok]
      exact congrArg (shows sink ++ ·) (List.append_nil _)

/-- The first template ends in a numbered field, and the second begins with an escape
    and has an unnumbered one. -/
theorem writeFields_append_escape :
    Sink.KeepsAll Writer.text Writer.unlimited ∧
      (writeFields Writer.unlimited ['a', '\\', '{', '{', '1', '}']
        [Rendering.text, fun _ => .char 'é']).2 = .ok (Count.ofNat 4) ∧
      ¬ (HasUnnumbered ['a', '\\', '{', '{', '1', '}'] ∧
        HasUnnumbered ['\\', '{', '{', ':', 'x', '}']) ∧
      ¬ (EndsInBackslash ['a', '\\', '{', '{', '1', '}'] ∧
        (['\\', '{', '{', ':', 'x', '}'] : Text).head? = some '{') ∧
      (writeFields Writer.unlimited
          (['a', '\\', '{', '{', '1', '}'] ++ ['\\', '{', '{', ':', 'x', '}'])
          [Rendering.text, fun _ => .char 'é']).1.text =
        (writeFields (writeFields Writer.unlimited ['a', '\\', '{', '{', '1', '}']
          [Rendering.text, fun _ => .char 'é']).1 ['\\', '{', '{', ':', 'x', '}']
          [Rendering.text, fun _ => .char 'é']).1.text := by
  have hfirst : (writeFields Writer.unlimited ['a', '\\', '{', '{', '1', '}']
      [Rendering.text, fun _ => .char 'é']).2 = .ok (Count.ofNat 4) := by
    decide +kernel
  have hcount : ¬ (HasUnnumbered ['a', '\\', '{', '{', '1', '}'] ∧
      HasUnnumbered ['\\', '{', '{', ':', 'x', '}']) :=
    fun h => (byNumber_parse_iff _).mp (by decide +kernel) h.1
  have hseam : ¬ (EndsInBackslash ['a', '\\', '{', '{', '1', '}'] ∧
      (['\\', '{', '{', ':', 'x', '}'] : Text).head? = some '{') :=
    fun h => absurd h.2 (by decide)
  exact ⟨Writer.keepsAll_unlimited, hfirst, hcount, hseam,
    (writeFields_append Writer.keepsAll_unlimited hfirst hcount hseam).1⟩

end Stencil
