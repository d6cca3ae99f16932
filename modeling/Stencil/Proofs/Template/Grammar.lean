import Stencil.Format
import Stencil.Proofs.Rendering.Sequence

/-!
# The Grammar of Templates

What a template means, said without reading it from left to right. A template
is written down from a reading: text and fields by turns, then the text after
the last field, and at the end perhaps an opening brace that opens no field.
`Reading.source` writes a reading down, and `Reading.WellFormed` says which
readings may be written. Every text has each of its braces directly behind a
backslash, and a text with an opening brace after it does not end in a
backslash, so that the two kinds of brace cannot be confused. What stands
behind the brace of a malformed field does not begin with the inside of any
field and its closing brace.

A reading prescribes a list of renderings: for each text the runs it is sent
in, for each field the rendering of the argument it selects, and the failure
of the malformed field. They take place in order up to the first that fails.

## Main definitions

* `Escaped`: Every brace of a text stands directly behind a backslash.
* `unescape`: The text that is meant, without those backslashes.
* `runs`: The same text, divided before each escaped brace.
* `Hole`: The inside of a field as it is written.
* `Reading`: A template taken apart.
* `Reading.source`: The template that a reading is of.
* `Reading.Reads`: A well-formed reading of a template.
* `Reading.sendRun`: What is done with a run.
* `Reading.expansion`: The rendering that a reading prescribes.

## Theorems

* `flatten_runs`: The runs of a text are the text that is meant.
* `nil_not_mem_runs`: No run is empty.
* `Reading.textSteps_eq`: Runs are rendered as the grammar has it.
-/

namespace Stencil

/-- Every opening brace of a text stands directly behind a backslash. -/
def Escaped (source : Text) : Prop :=
  ∀ before after, source = before ++ '{' :: after → ∃ rest, before = rest ++ ['\\']

/-- The last character of a text is a backslash. -/
def EndsInBackslash (source : Text) : Prop := ∃ rest, source = rest ++ ['\\']

/-- A text without the backslashes that stand directly before a brace. -/
def unescape : Text → Text
  | '\\' :: '{' :: rest => '{' :: unescape rest
  | c :: rest => c :: unescape rest
  | [] => []

/-- A text cut at its escaped braces: what precedes the first of them, and what
    follows each. The escapes themselves are gone. -/
def parts : Text → Text × List Text
  | '\\' :: '{' :: rest => ([], (parts rest).1 :: (parts rest).2)
  | c :: rest => (c :: (parts rest).1, (parts rest).2)
  | [] => ([], [])

/-- The runs that a text is sent in. Each escaped brace begins a new one. -/
def runs (source : Text) : List Text :=
  ((parts source).1 :: (parts source).2.map ('{' :: ·)).filter (fun run => !run.isEmpty)

theorem unescape_cons {c : Char} {rest : Text}
    (hne : ∀ after, c = '\\' → rest = '{' :: after → False) :
    unescape (c :: rest) = c :: unescape rest := by
  rw [unescape]
  exact hne

theorem parts_cons {c : Char} {rest : Text}
    (hne : ∀ after, c = '\\' → rest = '{' :: after → False) :
    parts (c :: rest) = (c :: (parts rest).1, (parts rest).2) := by
  rw [parts]
  exact hne

/-- What precedes the first escape and what follows each of them, the braces included,
    is the text that is meant. -/
theorem unescape_eq_flatten_parts (source : Text) :
    unescape source = ((parts source).1 :: (parts source).2.map ('{' :: ·)).flatten := by
  induction source using parts.induct with
  | case1 rest ih => simp only [unescape, parts, ih, List.map_cons, List.flatten_cons,
      List.nil_append, List.cons_append]
  | case2 c rest hne ih =>
      rw [unescape_cons hne, parts_cons hne, ih]
      simp only [List.flatten_cons, List.cons_append]
  | case3 => rfl

/-- Empty runs add nothing to a text. -/
theorem flatten_filter_not_isEmpty (ts : List Text) :
    (ts.filter (fun run => !run.isEmpty)).flatten = ts.flatten := by
  induction ts with
  | nil => rfl
  | cons t rest ih =>
      rw [List.filter_cons]
      cases t with
      | nil => simpa only [List.isEmpty_nil, Bool.not_true, Bool.false_eq_true, if_false,
          List.flatten_cons, List.nil_append] using ih
      | cons c t => simp only [List.isEmpty_cons, Bool.not_false, if_true, List.flatten_cons, ih]

/-- The runs of a text are the text that is meant: nothing is left out or sent
    twice, and the order is kept. -/
theorem flatten_runs (source : Text) : (runs source).flatten = unescape source := by
  rw [runs, flatten_filter_not_isEmpty, unescape_eq_flatten_parts]

theorem nil_not_mem_runs (source : Text) : [] ∉ runs source := by
  intro hmem
  have hne := (List.mem_filter.mp hmem).2
  simp only [List.isEmpty_nil, Bool.not_true, Bool.false_eq_true] at hne

/-- The inside of a field: its digits, and its spec if there is a colon. -/
structure Hole where
  /-- The digits of the selector. There are none in an unnumbered field. -/
  digits : Text
  spec : Option Text

namespace Hole

/-- A selector has digits only, and a spec ends at the first closing brace. -/
structure WellFormed (h : Hole) : Prop where
  digits : ∀ c ∈ h.digits, c.isDigit
  spec : ∀ s, h.spec = some s → '}' ∉ s

/-- The inside of a field as it stands between the braces. -/
def inside (h : Hole) : Text :=
  match h.spec with
  | none => h.digits
  | some s => h.digits ++ ':' :: s

/-- Whether the field has no number. -/
def unnumbered (h : Hole) : Bool := h.digits.isEmpty

/-- The number that decimal digits denote, the first counting most. -/
def valueOf : Text → Nat
  | [] => 0
  | c :: rest => (c.toNat - '0'.toNat) * Nat.pow 10 rest.length + valueOf rest

/-- The rendering of a field that has `earlier` unnumbered fields to its left.
    A number selects an argument by itself, and an unnumbered field the one
    whose number is `earlier`. An absent spec is an empty one. -/
def render (h : Hole) (args : Arguments) (earlier : Nat) : Rendering :=
  if h.unnumbered then
    match args[earlier]? with
    | some renderer => renderer (h.spec.getD [])
    | none => ⟨[], .error .notEnoughArguments⟩
  else
    match args[valueOf h.digits]? with
    | some renderer => renderer (h.spec.getD [])
    | none => ⟨[], .error .indexOutOfRange⟩

end Hole

/-- A template taken apart. -/
structure Reading where
  /-- The fields, each with the text in front of it. -/
  fields : List (Text × Hole)
  last : Text
  /-- What follows the opening brace of a malformed field, if there is one. -/
  broken : Option Text

namespace Reading

/-- Fields written down, each behind its text and in braces. -/
def fieldsSource : List (Text × Hole) → Text
  | [] => []
  | (text, hole) :: rest => text ++ '{' :: (hole.inside ++ '}' :: fieldsSource rest)

/-- The brace that opens no field, and what follows it. -/
def brokenSource : Option Text → Text
  | none => []
  | some rest => '{' :: rest

/-- The template that a reading is of. -/
def source (r : Reading) : Text := fieldsSource r.fields ++ (r.last ++ brokenSource r.broken)

/-- Text in front of an opening brace: its own braces are escaped, and the brace
    after it is not. -/
structure Leads (text : Text) : Prop where
  escaped : Escaped text
  open_end : ¬ EndsInBackslash text

/-- No field begins here: whatever follows does not begin with the inside of a
    field and a closing brace. -/
def Broken (rest : Text) : Prop :=
  ∀ (hole : Hole) (after : Text), hole.WellFormed → rest ≠ hole.inside ++ '}' :: after

/-- Texts, fields and the malformed field are what they are taken for. -/
structure WellFormed (r : Reading) : Prop where
  leads : ∀ f ∈ r.fields, Leads f.1
  holes : ∀ f ∈ r.fields, f.2.WellFormed
  last : Escaped r.last
  broken : ∀ rest, r.broken = some rest → Leads r.last ∧ Broken rest

/-- A reading of a template. -/
def Reads (r : Reading) (template : Text) : Prop := r.WellFormed ∧ r.source = template

/-- Sending a run: one call with all of it, and the length of its encoding. -/
def sendRun (run : Text) : Rendering := ⟨[.text run], .ok (Count.ofNat (Text.bytes run).length)⟩

/-- The renderings of a text: one for each run. -/
def textSteps (text : Text) : List Rendering := (runs text).map sendRun

/-- The renderings of texts and fields, behind the fields `before` them. -/
def fieldSteps (args : Arguments) : List Hole → List (Text × Hole) → List Rendering
  | _, [] => []
  | before, (text, hole) :: rest =>
    textSteps text ++
      hole.render args (before.countP Hole.unnumbered) :: fieldSteps args (before ++ [hole]) rest

/-- The failure of a malformed field, if there is one. -/
def brokenSteps : Option Text → List Rendering
  | none => []
  | some _ => [⟨[], .error .malformedField⟩]

/-- The renderings that a reading prescribes, first to last. -/
def steps (r : Reading) (args : Arguments) : List Rendering :=
  fieldSteps args [] r.fields ++ (textSteps r.last ++ brokenSteps r.broken)

/-- The rendering that a reading prescribes: its steps up to the first that
    fails. -/
def expansion (r : Reading) (args : Arguments) : Rendering := Rendering.inOrder (r.steps args)

/-- A run is rendered as the grammar has it: the width of a text is the length of its
    encoding. -/
theorem text_eq_sendRun (run : Text) : Rendering.text run = sendRun run := by
  rw [Rendering.text, Text.count, sendRun, Text.length_bytes]

theorem textSteps_eq (text : Text) : textSteps text = (runs text).map Rendering.text :=
  List.map_congr_left fun run _ => (text_eq_sendRun run).symm

end Reading

end Stencil
