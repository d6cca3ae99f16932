import Stencil.Chore.CommandLine

/-!
# The Program

The development chores as a program. It does not start the build tool itself:
the answers are given on its standard input, one exit status to a line, for as
many starts as there are lines. Starts beyond them succeed. The commands that a
chore would start are listed after its report, so a chore can be rehearsed.

## Main definitions

* `Chore.rehearsal`: The answers in a list of exit statuses.
-/

namespace Stencil

namespace Chore

/-- The answers in a list of exit statuses, a line that is no number counting as
    success. -/
def rehearsal (statuses : List String) : Script :=
  ⟨statuses.map fun s => ⟨(s.trimAscii.toString.toInt?).getD 0, [], []⟩, .silentSuccess⟩

/-- Read all lines of a stream. -/
partial def readLines (stream : IO.FS.Stream) (before : List String) : IO (List String) := do
  let line ← stream.getLine
  if line.isEmpty then return before.reverse
  readLines stream (line :: before)

/-- Serve the request on the command line. -/
def runProgram (args : List String) : IO UInt32 := do
  let request := Request.ofArguments args
  let statuses ← match request with
    | .chore _ => readLines (← IO.getStdin) []
    | _ => pure []
  let exit := request.serve false "0.00" (rehearsal statuses)
  IO.print exit.output
  IO.eprint exit.errors
  for command in exit.commands do
    IO.println (" ".intercalate ("cargo" :: command.arguments))
  return exit.status.toUInt32

end Chore

end Stencil

/-- The program. -/
def main (args : List String) : IO UInt32 := Stencil.Chore.runProgram args
