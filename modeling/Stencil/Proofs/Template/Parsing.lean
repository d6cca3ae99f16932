import Mathlib.Data.Nat.Find
import Mathlib.Tactic.ByContra
import Stencil.Proofs.Template.Unambiguous
import Stencil.Sink.Trace

/-!
# Reading Agrees with the Grammar

`Template.parse` goes over a template once and keeps a run in hand. Here it is
compared with the grammar: whatever reading a template is written down from,
parsing the template gives back the texts and fields of that reading, and every
template is written down from some reading. So rendering a template does what
its reading prescribes.

Parsing a text needs to know how the run in hand ends, because a backslash at
its end changes the meaning of the brace that follows. The run in hand at the
end of a text is a suffix of that text, so it is enough that the text itself
does not end in a backslash. That is the invariant of `literal_text`.

## Main definitions

* `Template.behind`: A template with runs of text in front of it.
* `Hole.selector`: The selector that the digits of a field denote.
* `Reading.template`: The template that a reading parses to.

## Theorems

* `Template.literal_text`: Parsing an escaped text gives its runs.
* `Template.opened_inside`: Parsing the inside of a field gives the field.
* `Template.opened_broken`: Parsing where no field begins gives a malformed one.
* `writeFields_plays`: Rendering a template on a sink makes the calls of its script.
* `Reading.parse_source`: Parsing what a reading is written as.
* `Reading.exists_reads`: Every template has a reading.
* `Reading.render_template`: Rendering a reading is going through its steps.
* `Reading.writeFields_eq_expansion`: Rendering a template does what its reading
  prescribes, for every sink.
-/

namespace Stencil

/-- What is left of an escaped text behind a character that escapes nothing. -/
theorem Escaped.tail {c : Char} {rest : Text} (h : Escaped (c :: rest))
    (hne : ∀ after, c = '\\' → rest = '{' :: after → False) : Escaped rest := by
  intro before after hrest
  rcases h (c :: before) after (by rw [hrest, List.cons_append]) with ⟨front, hfront⟩
  cases front with
  | nil =>
      -- The backslash is the character that was taken off.
      rw [List.nil_append, List.cons.injEq] at hfront
      rw [hfront.2] at hrest
      exact (hne after hfront.1 hrest).elim
  | cons d front =>
      rw [List.cons_append, List.cons.injEq] at hfront
      exact ⟨front, hfront.2⟩

/-- What is left of an escaped text behind an escape is escaped. -/
theorem Escaped.behind_escape {rest : Text} (h : Escaped ('\\' :: '{' :: rest)) :
    Escaped rest := by
  intro before after hrest
  rcases h ('\\' :: '{' :: before) after (by rw [hrest]; rfl) with ⟨front, hfront⟩
  -- The backslash it stands behind cannot be in the escape that was taken off.
  match front, hfront with
  | [], hfront => exact absurd hfront (by simp)
  | [_], hfront => exact absurd hfront (by simp)
  | _ :: _ :: front, hfront =>
    simp only [List.cons_append, List.cons.injEq] at hfront
    exact ⟨front, hfront.2.2⟩

theorem Escaped.head_ne {c : Char} {rest : Text} (h : Escaped (c :: rest)) : c ≠ '{' := by
  intro hc
  rcases h [] rest (by rw [hc]; rfl) with ⟨front, hfront⟩
  exact absurd hfront (by simp)

namespace Hole

/-- The selector that the digits of a field denote, as a word. -/
def selector (h : Hole) : Selector :=
  if h.unnumbered then .implicit else .explicit (min (valueOf h.digits) Count.limit)

theorem inside_cons (c : Char) (digits : Text) (spec : Option Text) :
    (⟨c :: digits, spec⟩ : Hole).inside = c :: (⟨digits, spec⟩ : Hole).inside := by
  cases spec <;> rfl

theorem wellFormed_empty : (⟨[], none⟩ : Hole).WellFormed :=
  ⟨fun _ hc => absurd hc List.not_mem_nil, fun _ hs => absurd hs (by simp)⟩

theorem wellFormed_spec {s : Text} (hs : '}' ∉ s) : (⟨[], some s⟩ : Hole).WellFormed :=
  ⟨fun _ hc => absurd hc List.not_mem_nil, fun _ ht => Option.some.inj ht ▸ hs⟩

/-- A field stays well-formed with one more digit in front. -/
theorem WellFormed.cons {digits : Text} {spec : Option Text} {c : Char}
    (h : (⟨digits, spec⟩ : Hole).WellFormed) (hc : c.isDigit = true) :
    (⟨c :: digits, spec⟩ : Hole).WellFormed := by
  refine ⟨?_, h.spec⟩
  intro d hd
  rcases List.mem_cons.mp hd with rfl | hd
  · exact hc
  · exact h.digits d hd

/-- A number too large for a word selects no argument, and neither does the
    word that it sticks at. -/
theorem getElem?_min_limit {args : Arguments} (hargs : args.length ≤ Count.limit) (n : Nat) :
    args[min n Count.limit]? = args[n]? := by
  by_cases hn : n ≤ Count.limit
  · rw [Nat.min_eq_left hn]
  · have hlimit : Count.limit ≤ n := by omega
    rw [Nat.min_eq_right hlimit, List.getElem?_eq_none hargs,
      List.getElem?_eq_none (Nat.le_trans hargs hlimit)]

/-- A field renders the argument that its selector asks for. -/
theorem renderField_selector {args : Arguments} (hargs : args.length ≤ Count.limit) (next : Nat)
    (h : Hole) :
    Template.renderField args (min next Count.limit) h.selector (h.spec.getD []) =
      h.render args next := by
  rw [selector, render]
  by_cases hu : h.unnumbered = true
  · have hread := getElem?_min_limit hargs next
    rw [if_pos hu, if_pos hu]
    cases hfound : args[next]? with
    | none => simp only [Template.renderField, Selector.index, hread, hfound,
        Selector.outOfRange, Rendering.fail]
    | some renderer => simp only [Template.renderField, Selector.index, hread, hfound]
  · have hread := getElem?_min_limit hargs (valueOf h.digits)
    rw [if_neg hu, if_neg hu]
    cases hfound : args[valueOf h.digits]? with
    | none => simp only [Template.renderField, Selector.index, hread, hfound,
        Selector.outOfRange, Rendering.fail]
    | some renderer => simp only [Template.renderField, Selector.index, hread, hfound]

/-- The next unnumbered field selects by the number of those before it. -/
theorem after_selector (before : List Hole) (h : Hole) :
    h.selector.after (min (before.countP unnumbered) Count.limit) =
      min ((before ++ [h]).countP unnumbered) Count.limit := by
  rw [selector, List.countP_append, List.countP_singleton]
  by_cases hu : h.unnumbered = true
  · rw [if_pos hu, if_pos hu, Selector.after]
    omega
  · rw [if_neg hu, if_neg hu]
    rfl

end Hole

theorem EndsInBackslash.of_suffix {run source : Text} (hrun : EndsInBackslash run)
    (hsuffix : run <:+ source) : EndsInBackslash source := by
  rcases hrun with ⟨front, rfl⟩
  rcases hsuffix with ⟨before, rfl⟩
  exact ⟨before ++ front, (List.append_assoc _ _ _).symm⟩

namespace Template

/-- A template with runs of text in front of it. -/
def behind (ts : List Text) (rest : Template) : Template := ts.foldr text rest

theorem behind_append (ss ts : List Text) (rest : Template) :
    behind (ss ++ ts) rest = behind ss (behind ts rest) :=
  List.foldr_append

/-- Ending a run puts it in front of the rest, if there is anything in it. -/
theorem flush_eq_behind (run : Text) (rest : Template) :
    flush run.reverse rest = behind ([run].filter (fun run => !run.isEmpty)) rest := by
  cases run with
  | nil => rfl
  | cons c run =>
      rw [flush, List.isEmpty_reverse, List.reverse_reverse, List.filter_cons]
      simp only [List.isEmpty_cons, Bool.not_false, if_true, Bool.false_eq_true, if_false,
        List.filter_nil]
      rfl

theorem literal_nil (run : Text) : literal run [] = flush run .done := by
  simp only [literal]

theorem literal_escape (run rest : Text) :
    literal ('\\' :: run) ('{' :: rest) = flush run (literal ['{'] rest) := by
  simp only [literal]

theorem literal_cons {c : Char} (hc : c ≠ '{') (run rest : Text) :
    literal run (c :: rest) = literal (c :: run) rest := by
  rw [literal]
  · exact hc
  · exact fun _ _ => hc

/-- A brace opens a field if the run in hand does not end in a backslash. -/
theorem literal_brace {run : Text} (hrun : ¬ EndsInBackslash run) (rest : Text) :
    literal run.reverse ('{' :: rest) = flush run.reverse (opened rest) := by
  rw [literal]
  intro front hfront
  refine hrun ⟨front.reverse, ?_⟩
  rw [← List.reverse_reverse run, hfront, List.reverse_cons]

/-- Parsing an escaped text gives its runs. The run in hand is `held` at the
    start, and at the end it is a suffix of `held` and the text together. What
    the rest of the template does with such a run is all that is asked of it. -/
theorem literal_text {source : Text} (hsource : Escaped source) (held rest : Text)
    (ending : Template)
    (hrest : ∀ run, run <:+ held ++ source → literal run.reverse rest = flush run.reverse ending) :
    literal held.reverse (source ++ rest) =
      behind (((held ++ (parts source).1) :: (parts source).2.map ('{' :: ·)).filter
        (fun run => !run.isEmpty)) ending := by
  induction source using parts.induct generalizing held with
  | case1 source ih =>
      -- An escape: the run in hand ends, and the brace begins the next.
      have hnext := ih hsource.behind_escape ['{'] (by
        intro run hrun
        refine hrest run (hrun.trans ⟨held ++ ['\\'], ?_⟩)
        simp only [List.append_assoc, List.cons_append, List.nil_append])
      have hrun : (['{'] : Text).reverse = ['{'] := rfl
      rw [hrun] at hnext
      rw [List.cons_append, List.cons_append, literal_cons (by decide), literal_escape, hnext,
        flush_eq_behind, ← behind_append, ← List.filter_append]
      simp only [parts, List.append_nil, List.map_cons, List.cons_append, List.nil_append]
  | case2 c source hne ih =>
      -- An ordinary character joins the run in hand.
      have hnext := ih (hsource.tail hne) (held ++ [c]) (by
        intro run hrun
        refine hrest run ?_
        rwa [List.append_assoc, List.cons_append, List.nil_append] at hrun)
      rw [List.reverse_append, List.reverse_cons, List.reverse_nil, List.nil_append,
        List.cons_append, List.nil_append] at hnext
      rw [List.cons_append, literal_cons hsource.head_ne, hnext, parts_cons hne]
      simp only [List.append_assoc, List.cons_append, List.nil_append]
  | case3 =>
      -- At the end of the text the run in hand is all that was held.
      have hheld : held <:+ held ++ [] := by simp only [List.append_nil, List.suffix_rfl]
      rw [List.nil_append, hrest held hheld, flush_eq_behind]
      simp only [parts, List.append_nil, List.map_nil]

theorem literal_last {source : Text} (hsource : Escaped source) :
    literal [] source = behind (runs source) .done := by
  have h := literal_text hsource [] [] .done (fun run _ => literal_nil run.reverse)
  rwa [List.append_nil, List.reverse_nil] at h

/-- Parsing a text with an opening brace behind it. -/
theorem literal_leads {source : Text} (hsource : Reading.Leads source) (rest : Text) :
    literal [] (source ++ '{' :: rest) = behind (runs source) (opened rest) :=
  literal_text hsource.escaped [] ('{' :: rest) (opened rest)
    (fun _ hrun => literal_brace (fun hend => hsource.open_end (hend.of_suffix hrun)) rest)

/-- Reading on inside a spec, up to the closing brace. -/
theorem spec_close {s : Text} (hs : '}' ∉ s) (selector : Selector) (read after : Text) :
    spec selector read (s ++ '}' :: after) =
      .field selector (read.reverse ++ s) (literal [] after) := by
  induction s generalizing read with
  | nil => rw [List.nil_append, spec, if_pos rfl, List.append_nil]
  | cons c s ih =>
      -- The spec has no closing brace, so its first character is none and is taken over.
      have hc : c ≠ '}' := fun hc => hs (by rw [hc]; exact List.mem_cons_self)
      have hrest : '}' ∉ s := fun hmem => hs (List.mem_cons_of_mem c hmem)
      rw [List.cons_append, spec, if_neg hc, ih hrest, List.reverse_cons, List.append_assoc,
        List.singleton_append]

/-- Reading on inside a spec ends at a closing brace or not at all. -/
theorem spec_cases (selector : Selector) (read source : Text) :
    spec selector read source = .malformed ∨
      ∃ s after, '}' ∉ s ∧ source = s ++ '}' :: after := by
  induction source generalizing read with
  | nil => exact Or.inl (by rw [spec])
  | cons c source ih =>
      by_cases hc : c = '}'
      · exact Or.inr ⟨[], source, List.not_mem_nil, by rw [hc, List.nil_append]⟩
      · rw [spec, if_neg hc]
        rcases ih (c :: read) with hbad | ⟨s, after, hs, hsource⟩
        · exact Or.inl hbad
        · refine Or.inr ⟨c :: s, after, ?_, by rw [hsource, List.cons_append]⟩
          intro hmem
          rcases List.mem_cons.mp hmem with hhead | htail
          · exact hc hhead.symm
          · exact hs htail

/-- Reading on after the first digits of a number, up to the last. Capping each
    step is capping the number. -/
theorem numbered_digits {digits : Text} (hdigits : ∀ c ∈ digits, c.isDigit) (n : Nat)
    (rest : Text) :
    numbered (min n Count.limit) (digits ++ rest) =
      numbered (min (n * Nat.pow 10 digits.length + Hole.valueOf digits) Count.limit) rest := by
  induction digits generalizing n with
  | nil => simp only [List.nil_append, List.length_nil, Hole.valueOf, Nat.pow_zero, Nat.mul_one,
      Nat.add_zero, Nat.pow_eq]
  | cons c digits ih =>
      have hc : c.isDigit = true := hdigits c List.mem_cons_self
      have hrest : ∀ d ∈ digits, d.isDigit := fun d hd => hdigits d (List.mem_cons_of_mem c hd)
      -- What was capped stays above the limit when it grows.
      have hcap : min (min n Count.limit * 10 + digitValue c) Count.limit =
          min (n * 10 + digitValue c) Count.limit := by omega
      rw [List.cons_append, numbered, if_pos hc, hcap, ih hrest, Hole.valueOf, digitValue,
        List.length_cons, Nat.pow_eq, Nat.pow_eq, Nat.pow_succ]
      congr 2
      rw [Nat.add_mul, Nat.mul_assoc, Nat.mul_comm 10, Nat.add_assoc]

/-- Reading on behind the first digit reads the number of all digits. -/
theorem numbered_first {c : Char} {digits : Text} (hc : c.isDigit = true)
    (hdigits : ∀ d ∈ digits, d.isDigit) (rest : Text) :
    numbered (digitValue c) (digits ++ rest) =
      numbered (min (Hole.valueOf (c :: digits)) Count.limit) rest := by
  -- A single digit is far below the limit, so the first step caps nothing.
  have hsmall : digitValue c ≤ Count.limit := by
    have hnine : c.toNat ≤ 57 := by
      simp only [Char.isDigit, Bool.and_eq_true, decide_eq_true_eq] at hc
      exact UInt32.le_iff_toNat_le.mp hc.2
    have hlimit : 57 ≤ Count.limit := by decide
    exact Nat.le_trans (Nat.sub_le _ _) (Nat.le_trans hnine hlimit)
  have h := numbered_digits hdigits (digitValue c) rest
  rwa [Nat.min_eq_left hsmall] at h

/-- What may follow a selector: a spec behind a colon, or the closing brace, or
    nothing that makes a field. -/
theorem selected_cases (selector : Selector) (c : Char) (source : Text) :
    (if c = ':' then spec selector [] source
      else if c = '}' then .field selector [] (literal [] source) else .malformed) = malformed ∨
      ∃ (hole : Hole) (after : Text), hole.WellFormed ∧
        c :: source = hole.inside ++ '}' :: after := by
  by_cases hcolon : c = ':'
  · rw [if_pos hcolon]
    rcases spec_cases selector [] source with hbad | ⟨s, after, hs, hsource⟩
    · exact Or.inl hbad
    · exact Or.inr ⟨⟨[], some s⟩, after, Hole.wellFormed_spec hs, by rw [hcolon, hsource]; rfl⟩
  · rw [if_neg hcolon]
    by_cases hclose : c = '}'
    · exact Or.inr ⟨⟨[], none⟩, source, Hole.wellFormed_empty, by rw [hclose]; rfl⟩
    · exact Or.inl (if_neg hclose)

/-- Behind a digit there is the rest of a field, or none that is well-formed. -/
theorem numbered_cases (n : Nat) (source : Text) :
    numbered n source = .malformed ∨
      ∃ (hole : Hole) (after : Text), hole.WellFormed ∧ source = hole.inside ++ '}' :: after := by
  induction source generalizing n with
  | nil => exact Or.inl (by rw [numbered])
  | cons c source ih =>
      rw [numbered]
      by_cases hdigit : c.isDigit = true
      · rw [if_pos hdigit]
        rcases ih (min (n * 10 + digitValue c) Count.limit) with
          hbad | ⟨hole, after, hhole, hsource⟩
        · exact Or.inl hbad
        · exact Or.inr ⟨⟨c :: hole.digits, hole.spec⟩, after, hhole.cons hdigit,
            by rw [hsource, Hole.inside_cons, List.cons_append]⟩
      · rw [if_neg hdigit]
        exact selected_cases (.explicit n) c source

/-- Behind an opening brace there is the inside of a field, or parsing finds a
    malformed one. -/
theorem opened_cases (source : Text) :
    opened source = .malformed ∨
      ∃ (hole : Hole) (after : Text), hole.WellFormed ∧ source = hole.inside ++ '}' :: after := by
  cases source with
  | nil => exact Or.inl (by rw [opened])
  | cons c source =>
      rw [opened]
      by_cases hdigit : c.isDigit = true
      · -- The digits after the first are read as those of a number.
        rw [if_pos hdigit]
        rcases numbered_cases (digitValue c) source with hbad | ⟨hole, after, hhole, hsource⟩
        · exact Or.inl hbad
        · exact Or.inr ⟨⟨c :: hole.digits, hole.spec⟩, after, hhole.cons hdigit,
            by rw [hsource, Hole.inside_cons, List.cons_append]⟩
      · rw [if_neg hdigit]
        exact selected_cases .implicit c source

/-- Where no field begins, parsing finds a malformed one. -/
theorem opened_broken {source : Text} (hbroken : Reading.Broken source) :
    opened source = .malformed := by
  rcases opened_cases source with hbad | ⟨hole, after, hhole, hsource⟩
  · exact hbad
  · exact (hbroken hole after hhole hsource).elim

/-- Parsing the inside of a field gives the field, and parsing goes on behind
    the closing brace. -/
theorem opened_inside {hole : Hole} (hhole : hole.WellFormed) (after : Text) :
    opened (hole.inside ++ '}' :: after) =
      .field hole.selector (hole.spec.getD []) (literal [] after) := by
  rcases hole with ⟨digits, spec⟩
  -- A spec is read up to its closing brace, whatever selector is in front.
  have hspec : ∀ (selector : Selector) (s : Text), spec = some s →
      Template.spec selector [] (s ++ '}' :: after) = .field selector s (literal [] after) :=
    fun selector s hs => spec_close (hhole.spec s hs) selector [] after
  cases digits with
  | nil =>
      cases spec with
      | none =>
          simp only [Hole.inside, List.nil_append]
          rw [opened, if_neg (by decide), if_neg (by decide), if_pos rfl]
          rfl
      | some s =>
          simp only [Hole.inside, List.nil_append, List.cons_append]
          rw [opened, if_neg (by decide), if_pos rfl, hspec _ s rfl]
          rfl
  -- A number, with a spec or without one.
  | cons c digits =>
      have hc : c.isDigit = true := hhole.digits c List.mem_cons_self
      have hrest : ∀ d ∈ digits, d.isDigit :=
        fun d hd => hhole.digits d (List.mem_cons_of_mem c hd)
      rw [Hole.inside_cons, List.cons_append, opened, if_pos hc]
      cases spec with
      | none =>
          simp only [Hole.inside]
          rw [numbered_first hc hrest, numbered, if_neg (by decide), if_neg (by decide), if_pos rfl]
          rfl
      | some s =>
          simp only [Hole.inside, List.append_assoc, List.cons_append]
          rw [numbered_first hc hrest, numbered, if_neg (by decide), if_pos rfl, hspec _ s rfl]
          rfl

theorem render_behind (args : Arguments) (next : Nat) (ts : List Text) (rest : Template) :
    render args next (behind ts rest) =
      (Rendering.concat (ts.map Rendering.text)).andThen (render args next rest) := by
  induction ts with
  | nil => exact (Rendering.done_andThen _).symm
  | cons t ts ih =>
      have hcons : behind (t :: ts) rest = .text t (behind ts rest) := rfl
      rw [hcons, render, ih, List.map_cons, Rendering.concat, Rendering.andThen_assoc]

end Template

/-- Rendering a template on a sink makes the calls of what the template is rendered
    to, and ends as that does. -/
theorem writeFields_plays {template : Text} {args : Arguments} {r : Rendering}
    (h : fields template args = r) :
    heard (fun sink => writeFields sink template args) = r.events ∧
      ∀ {σ : Type} [Sink σ] (sink : σ),
        writeFields sink template args = (Sink.acceptAll sink r.events, r.outcome) := by
  refine ⟨?_, ?_⟩
  · rw [← h]
    exact heard_into _
  · intro σ _ sink
    rw [writeFields, h, Rendering.into]

namespace Reading

/-- Fields as a parsed template, in front of another. -/
def fieldsTemplate : List (Text × Hole) → Template → Template
  | [], ending => ending
  | (text, hole) :: rest, ending =>
    Template.behind (runs text)
      (.field hole.selector (hole.spec.getD []) (fieldsTemplate rest ending))

def brokenTemplate : Option Text → Template
  | none => .done
  | some _ => .malformed

/-- What a reading parses to. -/
def template (r : Reading) : Template :=
  fieldsTemplate r.fields (Template.behind (runs r.last) (brokenTemplate r.broken))

/-- Fields are parsed one after the other, and then what is behind them. -/
theorem literal_fieldsSource (fields : List (Text × Hole)) (hleads : ∀ f ∈ fields, Leads f.1)
    (hholes : ∀ f ∈ fields, f.2.WellFormed) (tail : Text) :
    Template.literal [] (fieldsSource fields ++ tail) =
      fieldsTemplate fields (Template.literal [] tail) := by
  induction fields with
  | nil => rfl
  | cons f fields ih =>
      rcases f with ⟨text, hole⟩
      have hrest := ih (fun g hg => hleads g (List.mem_cons_of_mem _ hg))
        (fun g hg => hholes g (List.mem_cons_of_mem _ hg))
      have hlead : Leads text := hleads (text, hole) List.mem_cons_self
      have hhole : hole.WellFormed := hholes (text, hole) List.mem_cons_self
      simp only [fieldsSource, fieldsTemplate, List.append_assoc, List.cons_append]
      rw [Template.literal_leads hlead, Template.opened_inside hhole, hrest]

/-- Parsing a template gives back the reading that it was written down from. -/
theorem parse_source {r : Reading} (h : r.WellFormed) :
    Template.parse r.source = r.template := by
  rcases r with ⟨fields, last, broken⟩
  -- Behind the fields there is the last text, and a brace if a field is malformed.
  have hend : Template.literal [] (last ++ brokenSource broken) =
      Template.behind (runs last) (brokenTemplate broken) := by
    cases broken with
    | none => rw [brokenSource, List.append_nil, Template.literal_last h.last, brokenTemplate]
    | some rest =>
        rcases h.broken rest rfl with ⟨hlead, hbroken⟩
        rw [brokenSource, Template.literal_leads hlead, Template.opened_broken hbroken,
          brokenTemplate]
  rw [Template.parse, source, literal_fieldsSource fields h.leads h.holes, hend, template]

/-- Fields are rendered in order, by induction on them. Those that were met have to be
    counted, and the count sticks at the limit. -/
theorem render_fieldsTemplate {args : Arguments} (hargs : args.length ≤ Count.limit)
    (fields : List (Text × Hole)) (before : List Hole) (ending : Template) :
    (fieldsTemplate fields ending).render args
        (min (before.countP Hole.unnumbered) Count.limit) =
      (Rendering.concat (fieldSteps args before fields)).andThen
        (ending.render args
          (min ((before ++ fields.map Prod.snd).countP Hole.unnumbered) Count.limit)) := by
  induction fields generalizing before with
  | nil =>
      rw [fieldsTemplate, fieldSteps, List.map_nil, List.append_nil]
      exact (Rendering.done_andThen _).symm
  | cons f fields ih =>
      rcases f with ⟨text, hole⟩
      rw [fieldsTemplate, Template.render_behind, Template.render,
        Hole.renderField_selector hargs, Hole.after_selector, ih, fieldSteps,
        Rendering.concat_append, Rendering.concat, textSteps_eq]
      simp only [Rendering.andThen_assoc, List.map_cons, List.append_assoc, List.cons_append,
        List.nil_append]

/-- Rendering what a reading parses to is going through its steps. -/
theorem render_template (r : Reading) {args : Arguments} (hargs : args.length ≤ Count.limit) :
    r.template.render args 0 = r.expansion args := by
  -- A malformed field fails the same way whatever came before it.
  have hbroken : ∀ next, (brokenTemplate r.broken).render args next =
      Rendering.concat (brokenSteps r.broken) := by
    intro next
    cases r.broken with
    | none => rfl
    | some _ => rfl
  have hfields := render_fieldsTemplate hargs r.fields []
    (Template.behind (runs r.last) (brokenTemplate r.broken))
  rw [List.countP_nil, Nat.zero_min] at hfields
  rw [expansion, ← Rendering.concat_eq_inOrder, steps, Rendering.concat_append,
    Rendering.concat_append, template, hfields, Template.render_behind, hbroken, textSteps_eq]

/-- A template is text with no open brace, or leads up to one. -/
theorem escaped_or_leads (source : Text) :
    Escaped source ∨ ∃ text rest, source = text ++ '{' :: rest ∧ Leads text := by
  by_cases hescaped : Escaped source
  · exact Or.inl hescaped
  · -- The first brace without a backslash before it is the one that opens.
    have hopen : ∃ n text rest, text.length = n ∧ source = text ++ '{' :: rest ∧
        ¬ EndsInBackslash text := by
      simp only [Escaped, not_forall] at hescaped
      rcases hescaped with ⟨text, rest, hsource, hend⟩
      exact ⟨text.length, text, rest, rfl, hsource, hend⟩
    classical
    rcases Nat.find_spec hopen with ⟨text, rest, hlength, hsource, hend⟩
    refine Or.inr ⟨text, rest, hsource, ?_, hend⟩
    intro before after htext
    by_contra hbefore
    -- A brace that is not escaped inside the text would come first.
    refine Nat.find_min hopen (m := before.length) ?_
      ⟨before, after ++ '{' :: rest, rfl, ?_, hbefore⟩
    · rw [← hlength, htext, List.length_append, List.length_cons]
      omega
    · rw [hsource, htext, List.append_assoc, List.cons_append]

/-- Every template has a reading, by induction on its length. -/
theorem exists_reads (whole : Text) : ∃ r : Reading, r.Reads whole := by
  induction hn : whole.length using Nat.strong_induction_on generalizing whole with
  | _ n ih =>
    rcases escaped_or_leads whole with hescaped | ⟨text, rest, hwhole, hlead⟩
    · exact ⟨⟨[], whole, none⟩, ⟨fun _ hf => absurd hf List.not_mem_nil,
        fun _ hf => absurd hf List.not_mem_nil, hescaped, fun _ hb => absurd hb (by simp)⟩,
        List.append_nil whole⟩
    · by_cases hbroken : Broken rest
      · refine ⟨⟨[], text, some rest⟩, ⟨fun _ hf => absurd hf List.not_mem_nil,
          fun _ hf => absurd hf List.not_mem_nil, hlead.escaped, ?_⟩, hwhole.symm⟩
        intro after hafter
        rw [← Option.some.inj hafter]
        exact ⟨hlead, hbroken⟩
      · -- A field begins, and the template behind it is shorter.
        simp only [Broken, not_forall, not_not] at hbroken
        rcases hbroken with ⟨hole, after, hhole, hrest⟩
        have hshort : after.length < n := by
          rw [← hn, hwhole, hrest]
          simp only [List.length_append, List.length_cons]
          omega
        rcases ih after.length hshort after rfl with ⟨r, hr, hrsource⟩
        refine ⟨⟨(text, hole) :: r.fields, r.last, r.broken⟩, ⟨?_, ?_, hr.last, hr.broken⟩, ?_⟩
        · intro f hf
          rcases List.mem_cons.mp hf with rfl | hf
          · exact hlead
          · exact hr.leads f hf
        · intro f hf
          rcases List.mem_cons.mp hf with rfl | hf
          · exact hhole
          · exact hr.holes f hf
        · rw [hwhole, hrest, ← hrsource]
          simp only [source, fieldsSource, List.append_assoc, List.cons_append]

/-- The rendering of a template is the one that its reading prescribes. -/
theorem fields_eq_expansion {r : Reading} {template : Text} (hr : r.Reads template)
    {args : Arguments} (hargs : args.length ≤ Count.limit) :
    Stencil.fields template args = r.expansion args := by
  rw [Stencil.fields, ← hr.2, parse_source hr.1, render_template r hargs]

/-- Every template has one reading, and rendering the template makes the calls that
    this reading prescribes and ends as it prescribes, whatever the arguments and
    the sink. The runs that are sent are the texts of the reading, neither cut nor
    repeated, and there is no call without text among them. -/
theorem writeFields_eq_expansion (template : Text) :
    ∃ r : Reading, r.Reads template ∧ (∀ s : Reading, s.Reads template → s = r) ∧
      (∀ f ∈ r.fields, (runs f.1).flatten = unescape f.1 ∧ [] ∉ runs f.1) ∧
      (runs r.last).flatten = unescape r.last ∧ [] ∉ runs r.last ∧
      ∀ args : Arguments, args.length ≤ Count.limit →
        heard (fun sink => writeFields sink template args) = (r.expansion args).events ∧
          ∀ {σ : Type} [Sink σ] (sink : σ), writeFields sink template args =
            (Sink.acceptAll sink (r.expansion args).events, (r.expansion args).outcome) := by
  rcases exists_reads template with ⟨r, hr⟩
  refine ⟨r, hr, fun s hs => reads_unique hs hr,
    fun f _ => ⟨flatten_runs f.1, nil_not_mem_runs f.1⟩, flatten_runs r.last,
    nil_not_mem_runs r.last, ?_⟩
  intro args hargs
  exact writeFields_plays (fields_eq_expansion hr hargs)

end Reading

end Stencil
