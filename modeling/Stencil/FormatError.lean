/-!
# Why a Rendering Fails

There are four causes, and each is found at a different place: two by reading
the template, one by the template against the number of its arguments, one by
the value being rendered. A failing part does not undo what was written before
it, so the cause is all that a failure carries.

## Main definitions

* `FormatError`: The cause of a failure.
* `FormatError.message`: Its wording.
-/

namespace Stencil

/-- The cause of a failed rendering. -/
inductive FormatError
  /-- A field is not closed, or its selector is followed by something other
      than a colon or the closing brace. -/
  | malformedField
  /-- A numbered field asks for an argument past the end of the list. -/
  | indexOutOfRange
  /-- There are more unnumbered fields than arguments. -/
  | notEnoughArguments
  | unrenderable
  deriving DecidableEq, Repr

namespace FormatError

/-- The wording shown to a reader. -/
def message : FormatError → String
  | malformedField => "malformed field in format string"
  | indexOutOfRange => "explicit argument index out of range"
  | notEnoughArguments => "not enough format arguments"
  | unrenderable => "value could not be formatted"

end FormatError

end Stencil
