import Stencil.Text.Blank
import Stencil.Text.Lines

/-!
# The Summary of a Test Run

A test run prints its result on a line of its own, behind a marker. The summary
is what follows the marker on the first such line, up to the marker again if it
is repeated, without blanks around it. A run that never printed a result has no
summary, and says so.

## Main definitions

* `Summary.marker`: What stands in front of a result.
* `Summary.extract`: The summary in the output of a test run.
-/

namespace Stencil

namespace Chore

namespace Summary

/-- What stands in front of a result. -/
def marker : Text := "test result:".toList

def fallback : Text := "(summary not available)".toList

/-- The summary in the output of a test run. -/
def extract (output : Text) : Text :=
  match output.lines.findSome? (Text.cut? marker) with
  | some (_, rest) => (Text.upTo marker rest).trim
  | none => fallback

end Summary

end Chore

end Stencil
