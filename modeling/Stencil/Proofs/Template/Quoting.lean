import Stencil.Proofs.Template.Parsing
import Stencil.Sink.Writer

/-!
# Quoting

Any text can be put into a template. It is quoted by a backslash in front of
each opening brace, and nothing else in it needs care, not even a backslash that
stands in front of a brace already: only the backslash next to the brace is taken
off again, and it is the one that was added.

Placeholders go between quoted texts, under one condition. The brace that opens a
placeholder must not stand behind a backslash, so the text in front of it must not
end in one. Only the last text may.

A template built like this is a reading written down, so what the grammar says of
readings holds of it. Each text arrives as it was before it was quoted, in runs,
and each placeholder is filled in between.

## Main definitions

* `quote`: A text as it stands in a template.
* `Placeholder`: A field, numbered or not, with its spec.
* `Quoted.source`: The template made of texts and placeholders.
* `Quoted.send`: The rendering of a quoted text.
* `Quoted.steps`: What the texts and placeholders ask for.

## Theorems

* `unescape_quote`: Quoting is undone.
* `leads_quote`: A placeholder can follow unless the text ends in a backslash.
* `Hole.valueOf_leading_zeros`: A number in decimal, with zeros in front.
* `Quoted.writeFields_source`: Rendering the template does what was asked for.
-/

namespace Stencil

/-- A text with a backslash in front of every opening brace. -/
def quote (t : Text) : Text := t.flatMap fun c => if c = '{' then ['\\', '{'] else [c]

theorem quote_brace (t : Text) : quote ('{' :: t) = '\\' :: '{' :: quote t := rfl

theorem quote_cons {c : Char} (hc : c ≠ '{') (t : Text) : quote (c :: t) = c :: quote t := by
  rw [quote, List.flatMap_cons, if_neg hc]
  rfl

/-- A quoted text begins with no brace, the backslash being in front of it. -/
theorem quote_ne_brace (t rest : Text) : quote t ≠ '{' :: rest := by
  cases t with
  | nil => exact fun h => absurd h (List.cons_ne_nil _ _).symm
  | cons c t =>
      by_cases hc : c = '{'
      · rw [hc, quote_brace]
        simp
      · rw [quote_cons hc]
        simp [hc]

theorem unescape_quote (t : Text) : unescape (quote t) = t := by
  induction t with
  | nil => rfl
  | cons c t ih =>
      by_cases hc : c = '{'
      · rw [hc, quote_brace, unescape, ih]
      · -- A backslash of the text itself is never next to a brace.
        rw [quote_cons hc, unescape_cons (fun after _ h => quote_ne_brace t after h), ih]

theorem Escaped.cons {c : Char} {source : Text} (hc : c ≠ '{') (h : Escaped source) :
    Escaped (c :: source) := by
  intro before after hsource
  -- The character in front is not the brace, so the brace and its backslash are in the
  -- rest.
  cases before with
  | nil => exact absurd (List.cons.inj hsource).1 hc
  | cons d before =>
      rw [List.cons_append, List.cons.injEq] at hsource
      rcases h before after hsource.2 with ⟨rest, hrest⟩
      exact ⟨d :: rest, by rw [hrest, List.cons_append]⟩

/-- An escape can be put in front of an escaped text. -/
theorem Escaped.cons_escape {source : Text} (h : Escaped source) :
    Escaped ('\\' :: '{' :: source) := by
  intro before after hsource
  match before, hsource with
  | [], hsource => exact absurd (List.cons.inj hsource).1 (by decide)
  | [d], hsource =>
    -- The brace is the one that was escaped.
    rw [List.singleton_append, List.cons.injEq] at hsource
    exact ⟨[], by rw [hsource.1, List.nil_append]⟩
  | d :: e :: before, hsource =>
    simp only [List.cons_append, List.cons.injEq] at hsource
    rcases h before after hsource.2.2 with ⟨rest, hrest⟩
    exact ⟨d :: e :: rest, by rw [hrest, List.cons_append, List.cons_append]⟩

/-- In a quoted text every brace is escaped, by induction on the text. -/
theorem escaped_quote (t : Text) : Escaped (quote t) := by
  induction t with
  | nil =>
      intro before after h
      exact absurd h.symm (List.append_ne_nil_of_right_ne_nil before (List.cons_ne_nil _ _))
  | cons c t ih =>
      by_cases hc : c = '{'
      · rw [hc, quote_brace]
        exact ih.cons_escape
      · rw [quote_cons hc]
        exact ih.cons hc

/-- Quoting adds no backslash at the end, as it adds none without a brace behind
    it. -/
theorem endsInBackslash_of_quote {t : Text} (h : EndsInBackslash (quote t)) :
    EndsInBackslash t := by
  rcases h with ⟨rest, hrest⟩
  rcases List.eq_nil_or_concat t with rfl | ⟨front, c, rfl⟩
  · exact absurd hrest.symm (List.append_ne_nil_of_right_ne_nil rest (List.cons_ne_nil _ _))
  · rw [List.concat_eq_append] at hrest ⊢
    by_cases hc : c = '{'
    · -- A brace at the end is still there, behind its backslash.
      have hlast : quote (front ++ [c]) = (quote front ++ ['\\']) ++ ['{'] := by
        rw [hc, quote, quote, List.flatMap_append, List.append_assoc]
        rfl
      rw [hlast] at hrest
      exact absurd (List.append_inj_right' hrest rfl) (by decide)
    · have hlast : quote (front ++ [c]) = quote front ++ [c] := by
        rw [quote, quote, List.flatMap_append, List.flatMap_singleton, if_neg hc]
      rw [hlast] at hrest
      exact ⟨front, by rw [List.append_inj_right' hrest rfl]⟩

/-- A placeholder can follow a text that does not end in a backslash. -/
theorem leads_quote {t : Text} (h : ¬ EndsInBackslash t) : Reading.Leads (quote t) :=
  ⟨escaped_quote t, fun hend => h (endsInBackslash_of_quote hend)⟩

namespace Hole

theorem valueOf_eq_ofDigitChars (digits : Text) :
    valueOf digits = Nat.ofDigitChars 10 digits 0 := by
  induction digits with
  | nil => exact Nat.ofDigitChars_nil.symm
  | cons c digits ih =>
      rw [valueOf, ih, Nat.ofDigitChars_cons, Nat.mul_zero, Nat.zero_add,
        @Nat.ofDigitChars_eq_ofDigitChars_zero digits (c.toNat - '0'.toNat), Nat.pow_eq,
        Nat.mul_comm]

/-- Zeros in front do not change the number that is written. -/
theorem valueOf_leading_zeros (zeros n : Nat) :
    valueOf (List.replicate zeros '0' ++ Nat.toDigits 10 n) = n := by
  rw [valueOf_eq_ofDigitChars, Nat.ofDigitChars_append, Nat.ofDigitChars_replicate_zero,
    Nat.mul_zero, Nat.ofDigitChars_ten_toDigits]

end Hole

/-- A field that is to be filled in. -/
inductive Placeholder
  /-- The next argument. -/
  | next (spec : Text)
  /-- The argument with a number, which is written with zeros in front. -/
  | numbered (zeros n : Nat) (spec : Text)

namespace Placeholder

def spec : Placeholder → Text
  | next s => s
  | numbered _ _ s => s

def digits : Placeholder → Text
  | next _ => []
  | numbered zeros n _ => List.replicate zeros '0' ++ Nat.toDigits 10 n

/-- The field as it stands in a template. An empty spec has no colon. -/
def source (p : Placeholder) : Text :=
  '{' :: (p.digits ++ (if p.spec = [] then [] else ':' :: p.spec) ++ ['}'])

/-- What is filled in, when `earlier` unnumbered placeholders came before. -/
def render (p : Placeholder) (args : Arguments) (earlier : Nat) : Rendering :=
  match p with
  | next s =>
    match args[earlier]? with
    | some renderer => renderer s
    | none => ⟨[], .error .notEnoughArguments⟩
  | numbered _ n s =>
    match args[n]? with
    | some renderer => renderer s
    | none => ⟨[], .error .indexOutOfRange⟩

/-- How many unnumbered placeholders this is. -/
def unnumbered : Placeholder → Nat
  | next _ => 1
  | numbered _ _ _ => 0

/-- The field that a placeholder is written as. -/
def hole (p : Placeholder) : Hole := ⟨p.digits, if p.spec = [] then none else some p.spec⟩

theorem source_eq (p : Placeholder) : p.source = '{' :: (p.hole.inside ++ ['}']) := by
  rw [source, hole, Hole.inside]
  by_cases hspec : p.spec = []
  · simp only [hspec, if_true, List.append_nil]
  · simp only [if_neg hspec, List.append_assoc]

/-- A placeholder is written as a field, unless a closing brace in its spec ends it
    early. -/
theorem wellFormed_hole {p : Placeholder} (h : '}' ∉ p.spec) : p.hole.WellFormed := by
  refine ⟨?_, ?_⟩
  · intro c hc
    cases p with
    | next s => exact absurd hc List.not_mem_nil
    | numbered zeros n s =>
        -- The digits are the zeros and those of the number.
        rcases List.mem_append.mp hc with hzero | hdigit
        · rw [(List.mem_replicate.mp hzero).2]
          rfl
        · exact Nat.isDigit_of_mem_toDigits (by decide) (by decide) hdigit
  · intro s hs
    rw [hole] at hs
    split at hs
    · exact absurd hs (by simp)
    · exact Option.some.inj hs ▸ h

theorem getD_hole_spec (p : Placeholder) : p.hole.spec.getD [] = p.spec := by
  rw [hole]
  split
  · rename_i hspec
    rw [hspec, Option.getD_none]
  · exact Option.getD_some

/-- A field is an unnumbered one if the placeholder is: a number is written with
    one digit at least. -/
theorem unnumbered_hole (p : Placeholder) : p.hole.unnumbered = true ↔ p.unnumbered = 1 := by
  cases p with
  | next s => exact iff_of_true rfl rfl
  | numbered zeros n s =>
      refine iff_of_false ?_ (by decide : (0 : Nat) ≠ 1)
      intro hempty
      have hnil := List.isEmpty_iff.mp hempty
      exact Nat.toDigits_ne_nil (List.append_eq_nil_iff.mp hnil).2

/-- A placeholder is filled in as the field that it is written as. -/
theorem render_hole (p : Placeholder) (args : Arguments) (earlier : Nat) :
    p.hole.render args earlier = p.render args earlier := by
  have hspec := getD_hole_spec p
  have hunnumbered := unnumbered_hole p
  cases p with
  | next s =>
      rw [Hole.render, if_pos (hunnumbered.mpr rfl), hspec]
      rfl
  | numbered zeros n s =>
      -- The digits that are written denote the number.
      have hvalue : Hole.valueOf (numbered zeros n s).hole.digits = n :=
        Hole.valueOf_leading_zeros zeros n
      rw [Hole.render, if_neg (fun h => Nat.zero_ne_one (hunnumbered.mp h)), hspec, hvalue]
      rfl

theorem countP_unnumbered_hole (before : List Hole) (p : Placeholder) :
    (before ++ [p.hole]).countP Hole.unnumbered = before.countP Hole.unnumbered + p.unnumbered := by
  have hunnumbered := unnumbered_hole p
  rw [List.countP_append, List.countP_singleton]
  cases p with
  | next s => rw [if_pos (hunnumbered.mpr rfl)]; rfl
  | numbered zeros n s => rw [if_neg (fun h => Nat.zero_ne_one (hunnumbered.mp h))]; rfl

end Placeholder

namespace Quoted

/-- The template made of texts, each with a placeholder behind it, and a last
    text. -/
def source : List (Text × Placeholder) → Text → Text
  | [], last => quote last
  | (t, p) :: rest, last => quote t ++ p.source ++ source rest last

/-- A quoted text is sent in the runs that it is cut into by its escapes, and the
    length of its encoding is reported. -/
def send (t : Text) : Rendering :=
  ⟨(runs (quote t)).map Event.text, .ok (Count.ofNat (Text.bytes t).length)⟩

/-- What is asked for: the texts, and the placeholders filled in between. -/
def steps (args : Arguments) : Nat → List (Text × Placeholder) → Text → List Rendering
  | _, [], last => [send last]
  | earlier, (t, p) :: rest, last =>
    send t :: p.render args earlier :: steps args (earlier + p.unnumbered) rest last

/-- The runs of a text are the text. -/
theorem content_send (t : Text) : (send t).content = t := by
  rw [Rendering.content, send, Rendering.flatMap_texts, flatten_runs, unescape_quote]

/-- Sending the runs one by one reports the length of the text. -/
theorem concat_textSteps (t : Text) : Rendering.concat (Reading.textSteps (quote t)) = send t := by
  rw [Reading.textSteps_eq, Rendering.concat_texts, flatten_runs, unescape_quote, Text.count, send,
    Text.length_bytes]

/-- The reading that the template was written down from. -/
def reading (fs : List (Text × Placeholder)) (last : Text) : Reading :=
  ⟨fs.map fun f => (quote f.1, f.2.hole), quote last, none⟩

/-- The reading is written down as the template. -/
theorem source_reading (fs : List (Text × Placeholder)) (last : Text) :
    (reading fs last).source = source fs last := by
  induction fs with
  | nil => exact List.append_nil _
  | cons f fs ih =>
      rcases f with ⟨t, p⟩
      have hcons : (reading ((t, p) :: fs) last).source =
          quote t ++ '{' :: (p.hole.inside ++ '}' :: (reading fs last).source) := by
        simp only [reading, Reading.source, Reading.fieldsSource, List.map_cons,
          List.append_assoc, List.cons_append]
      rw [hcons, ih, source, Placeholder.source_eq]
      simp only [List.append_assoc, List.cons_append, List.nil_append]

theorem wellFormed_reading {fs : List (Text × Placeholder)} (last : Text)
    (hopen : ∀ f ∈ fs, ¬ EndsInBackslash f.1) (hspec : ∀ f ∈ fs, '}' ∉ f.2.spec) :
    (reading fs last).WellFormed := by
  refine ⟨?_, ?_, escaped_quote last, fun _ h => absurd h (by simp [reading])⟩
  · intro g hg
    rcases List.mem_map.mp hg with ⟨f, hf, rfl⟩
    exact leads_quote (hopen f hf)
  · intro g hg
    rcases List.mem_map.mp hg with ⟨f, hf, rfl⟩
    exact Placeholder.wellFormed_hole (hspec f hf)

/-- The reading asks for the same, text by text and field by field. -/
theorem concat_steps (args : Arguments) (before : List Hole) (fs : List (Text × Placeholder))
    (last : Text) :
    Rendering.concat (Reading.fieldSteps args before (reading fs last).fields ++
        (Reading.textSteps (quote last) ++ Reading.brokenSteps none)) =
      Rendering.concat (steps args (before.countP Hole.unnumbered) fs last) := by
  induction fs generalizing before with
  | nil =>
      rw [steps, Rendering.concat, Rendering.concat, Rendering.andThen_done, ← concat_textSteps,
        Reading.brokenSteps, List.append_nil]
      rfl
  | cons f fs ih =>
      rcases f with ⟨t, p⟩
      have hrest := ih (before ++ [p.hole])
      rw [Placeholder.countP_unnumbered_hole] at hrest
      -- The first text and its placeholder are the first steps.
      have hcons : Reading.fieldSteps args before (reading ((t, p) :: fs) last).fields =
          Reading.textSteps (quote t) ++
            p.hole.render args (before.countP Hole.unnumbered) ::
              Reading.fieldSteps args (before ++ [p.hole]) (reading fs last).fields := rfl
      rw [hcons, List.append_assoc, List.cons_append, Rendering.concat_append, concat_textSteps,
        Rendering.concat, hrest, Placeholder.render_hole, steps, Rendering.concat,
        Rendering.concat]

/-- Rendering the template is rendering the texts and placeholders in order. -/
theorem fields_source {fs : List (Text × Placeholder)} (last : Text)
    (hopen : ∀ f ∈ fs, ¬ EndsInBackslash f.1) (hspec : ∀ f ∈ fs, '}' ∉ f.2.spec)
    {args : Arguments} (hargs : args.length ≤ Count.limit) :
    fields (source fs last) args = Rendering.inOrder (steps args 0 fs last) := by
  have hreads : (reading fs last).Reads (source fs last) :=
    ⟨wellFormed_reading last hopen hspec, source_reading fs last⟩
  have hconcat := concat_steps args [] fs last
  rw [Reading.fields_eq_expansion hreads hargs, Reading.expansion, ← Rendering.concat_eq_inOrder,
    ← Rendering.concat_eq_inOrder]
  exact hconcat

/-- A text alone is a template without placeholders. -/
theorem fields_quote (t : Text) {args : Arguments} (hargs : args.length ≤ Count.limit) :
    fields (quote t) args = send t := by
  have hnone : ∀ f ∈ ([] : List (Text × Placeholder)), False := fun _ => List.not_mem_nil
  have hone := fields_source t (fun f hf => (hnone f hf).elim) (fun f hf => (hnone f hf).elim) hargs
  rwa [source, ← Rendering.concat_eq_inOrder, steps, Rendering.concat, Rendering.concat,
    Rendering.andThen_done] at hone

/-- Rendering a template that was put together from texts and placeholders. The
    sink hears the texts as they were before they were quoted, and the placeholders
    filled in between, up to the first that fails; and what is reported is the
    sum of their lengths. A text alone, whatever is in it, comes out as it was. -/
theorem writeFields_source {fs : List (Text × Placeholder)} (last : Text)
    (hopen : ∀ f ∈ fs, ¬ EndsInBackslash f.1) (hspec : ∀ f ∈ fs, '}' ∉ f.2.spec)
    {args : Arguments} (hargs : args.length ≤ Count.limit) :
    heard (fun sink => writeFields sink (source fs last) args) =
        (Rendering.inOrder (steps args 0 fs last)).events ∧
      (∀ {σ : Type} [Sink σ] (sink : σ), writeFields sink (source fs last) args =
        (Sink.acceptAll sink (Rendering.inOrder (steps args 0 fs last)).events,
          (Rendering.inOrder (steps args 0 fs last)).outcome)) ∧
      (∀ t : Text, (send t).content = t) ∧
      ∀ t : Text, received (fun sink => writeFields sink (quote t) args) = t ∧
        ∀ {σ : Type} [Sink σ] (sink : σ), writeFields sink (quote t) args =
          (Sink.acceptAll sink ((runs (quote t)).map Event.text),
            .ok (Count.ofNat (Text.bytes t).length)) := by
  have hplays := writeFields_plays (fields_source last hopen hspec hargs)
  refine ⟨hplays.1, hplays.2, content_send, ?_⟩
  intro t
  have hquote := writeFields_plays (fields_quote t hargs)
  refine ⟨?_, hquote.2⟩
  rw [received, hquote.1]
  exact content_send t

/-- A text with a backslash in front of its brace, a numbered placeholder, and a
    last text that ends in a backslash. -/
theorem writeFields_source_backslashes :
    (∀ f ∈ [(['\\', '{', 'a'], Placeholder.numbered 1 0 ['x'])], ¬ EndsInBackslash f.1) ∧
      (∀ f ∈ [(['\\', '{', 'a'], Placeholder.numbered 1 0 ['x'])], '}' ∉ f.2.spec) ∧
      [Rendering.text].length ≤ Count.limit ∧
      heard (fun sink => writeFields sink
          (source [(['\\', '{', 'a'], .numbered 1 0 ['x'])] ['{', '\\']) [Rendering.text]) =
        [.text ['\\'], .text ['{', 'a'], .text ['x'], .text ['{', '\\']] := by
  have hopen : ∀ f ∈ [(['\\', '{', 'a'], Placeholder.numbered 1 0 ['x'])],
      ¬ EndsInBackslash f.1 := by
    intro f hf
    rw [List.mem_singleton.mp hf]
    rintro ⟨rest, hrest⟩
    -- The last character is the letter.
    have hsplit : ['\\', '{'] ++ ['a'] = rest ++ ['\\'] := hrest
    exact absurd (List.append_inj_right' hsplit rfl) (by decide)
  have hspec : ∀ f ∈ [(['\\', '{', 'a'], Placeholder.numbered 1 0 ['x'])], '}' ∉ f.2.spec := by
    intro f hf
    rw [List.mem_singleton.mp hf]
    decide
  have hargs : [Rendering.text].length ≤ Count.limit := by decide
  have hcalls := (writeFields_source ['{', '\\'] hopen hspec hargs).1
  refine ⟨hopen, hspec, hargs, hcalls.trans ?_⟩
  decide +kernel

end Quoted

end Stencil
