import Stencil.Rendering

/-!
# Templates

A template is text with holes. A hole is a field in braces: a selector that
says which argument goes there, and after a colon a spec that says how.

Reading and rendering are separate. Reading turns the characters into a list
of text runs and fields that ends either properly or at a malformed field;
nothing in it depends on the arguments. Rendering walks that list. A malformed
field stands at the end of the list because everything before it is still
rendered, and nothing after it is ever looked at.

Three rules decide where a run ends.

* A brace directly after a backslash is text. The backslash is dropped, and
  the brace opens a new run, so an escaped brace always starts a piece.
* Every other opening brace outside a field opens a field. The last character
  of the run in hand tells the two apart, and after a field or an escape there
  is no backslash left in hand to be seen again.
* A closing brace outside a field is ordinary text.

Selectors are words. A number too large for one sticks at the largest word and
does not wrap round, and so does the count of unnumbered fields: no list of
arguments is long enough to have an argument there.

Runs are gathered back to front and turned round when they end, so reading is
linear in the length of the template.

## Main definitions

* `Selector`: Which argument a field asks for.
* `Template`: Runs and fields, and how the list ends.
* `Template.parse`: Reading a template.
* `Template.render`: Rendering it over a list of arguments.
-/

namespace Stencil

/-- Which argument a field renders. -/
inductive Selector
  /-- The argument with this number, counted from zero. -/
  | explicit (index : Nat)
  /-- The next argument: unnumbered fields count up from zero among
      themselves, whatever the numbered ones do. -/
  | implicit
  deriving DecidableEq

namespace Selector

/-- The argument asked for, when `next` unnumbered fields came before. -/
def index (next : Nat) : Selector → Nat
  | explicit n => n
  | implicit => next

/-- How many unnumbered fields there are after this one, counted in a word. -/
def after (next : Nat) : Selector → Nat
  | explicit _ => next
  | implicit => min (next + 1) Count.limit

/-- What it means that there is no such argument. -/
def outOfRange : Selector → FormatError
  | explicit _ => .indexOutOfRange
  | implicit => .notEnoughArguments

end Selector

/-- A template that has been read: runs of text and fields in order. -/
inductive Template
  | done
  /-- A field of the wrong shape, or one that the template ends inside. -/
  | malformed
  /-- A run of text, written in one call. -/
  | text (run : Text) (rest : Template)
  | field (selector : Selector) (spec : Text) (rest : Template)
  deriving DecidableEq

namespace Template

/-- End the run in hand, given back to front. An empty run is no piece. -/
def flush (run : Text) (rest : Template) : Template :=
  if run.isEmpty then rest else .text run.reverse rest

/-- The value of a decimal digit. -/
def digitValue (c : Char) : Nat := c.toNat - '0'.toNat

mutual

/-- Read on outside a field, with the run in hand back to front. -/
def literal : Text → Text → Template
  | run, [] => flush run .done
  -- The backslash is in hand already, so the run is ended without it.
  | '\\' :: run, '{' :: rest => flush run (literal ['{'] rest)
  | run, '{' :: rest => flush run (opened rest)
  | run, c :: rest => literal (c :: run) rest

/-- Read on just inside an opening brace. -/
def opened : Text → Template
  | [] => .malformed
  | c :: rest =>
    if c.isDigit then numbered (digitValue c) rest
    else if c = ':' then spec .implicit [] rest
    else if c = '}' then .field .implicit [] (literal [] rest)
    else .malformed

/-- Read on after the digits of a numbered field, worth `n` so far. -/
def numbered : Nat → Text → Template
  | _, [] => .malformed
  | n, c :: rest =>
    -- Sticking at the limit at every digit is sticking at it in the end.
    if c.isDigit then numbered (min (n * 10 + digitValue c) Count.limit) rest
    else if c = ':' then spec (.explicit n) [] rest
    else if c = '}' then .field (.explicit n) [] (literal [] rest)
    else .malformed

/-- Read on inside a spec, with what has been read of it back to front. -/
def spec : Selector → Text → Text → Template
  | _, _, [] => .malformed
  | selector, read, c :: rest =>
    if c = '}' then .field selector read.reverse (literal [] rest)
    else spec selector (c :: read) rest

end

/-- Read a template. -/
def parse (source : Text) : Template := literal [] source

/-- The rendering of one field, when `next` unnumbered fields came before. -/
def renderField (args : Arguments) (next : Nat) (selector : Selector) (spec : Text) : Rendering :=
  match args[selector.index next]? with
  | some renderer => renderer spec
  | none => .fail selector.outOfRange

/-- Render the pieces in order, up to the first that fails. -/
def render (args : Arguments) : Nat → Template → Rendering
  | _, .done => .done
  | _, .malformed => .fail .malformedField
  | next, .text run rest => (Rendering.text run).andThen (render args next rest)
  | next, .field selector spec rest =>
    (renderField args next selector spec).andThen (render args (selector.after next) rest)

end Template

end Stencil
