import Stencil.Chore.Report

/-!
# Plans and Their Execution

A chore is a plan that is fixed before it starts: a list of steps, each of which
starts the build tool once, with remarks in between and closing remarks at the
end. Nothing the tool prints can change the plan. All that matters of a step is
whether the tool could be started and whether it reported success.

A step that cannot be started ends the chore, and so does a required step that
fails. A step that is not required may fail, and the chore goes on.

The build tool is described by what it will answer: a list of answers, one for
each start, and what happens when the list is used up. It may be impossible to
start it then, and the script says why. So a chore is a function of its plan and
of that script, and its report is a value.

## Main definitions

* `Command`: One start of the build tool.
* `Answer`: What the tool answered.
* `Script`: All that the tool will answer.
* `Step`, `Item`, `Plan`: What a chore does.
* `Plan.run`: The report of a chore.
-/

namespace Stencil

namespace Chore

/-- One start of the build tool. -/
structure Command where
  arguments : List String
  /-- The flags handed on to the documentation tool, if any are. -/
  documentationFlags : Option String
  deriving DecidableEq, Repr

/-- What the build tool answered when it was started. -/
structure Answer where
  status : Int
  output : List UInt8
  errors : List UInt8
  deriving DecidableEq

namespace Answer

def succeeded (a : Answer) : Bool := a.status = 0

def silentSuccess : Answer := ⟨0, [], []⟩

end Answer

/-- What happens when the tool is started more often than it has answers. -/
inductive Afterwards
  | silentSuccess
  /-- It cannot be started, for a reason that the system gives. -/
  | unavailable (cause : String)
  deriving DecidableEq, Repr

/-- The tool is not there. -/
def Afterwards.missing : Afterwards := .unavailable "No such file or directory (os error 2)"

/-- What the build tool will answer. -/
structure Script where
  answers : List Answer
  /-- What comes after them. -/
  afterwards : Afterwards

namespace Script

/-- Start the tool: its answer and the script that is left, or why it could not
    be started. -/
def start (script : Script) : Except String (Answer × Script) :=
  match script.answers, script.afterwards with
  | a :: rest, afterwards => .ok (a, ⟨rest, afterwards⟩)
  | [], .silentSuccess => .ok (.silentSuccess, script)
  | [], .unavailable cause => .error cause

end Script

structure Failure where
  message : String
  /-- What made it fail, where something else did. -/
  cause : Option String
  deriving DecidableEq, Repr

/-- One start of the build tool within a plan. -/
structure Step where
  announcement : Line
  command : Command
  /-- Whether the chore fails with the step. -/
  required : Bool
  /-- What failed if the tool cannot be started. -/
  startFailure : String
  /-- What failed if the tool does not succeed. -/
  exitFailure : String
  onSuccess : Answer → List Line
  onFailure : Answer → List Line

/-- A part of a plan. -/
inductive Item
  | remark (line : Line)
  | step (s : Step)

/-- What a chore does. -/
structure Plan where
  items : List Item
  closing : List Line

/-- What became of a chore. -/
structure Report where
  lines : List Line
  commands : List Command
  result : Except Failure Unit

namespace Report

/-- The report with more in front. -/
def prepend (lines : List Line) (commands : List Command) (r : Report) : Report :=
  ⟨lines ++ r.lines, commands ++ r.commands, r.result⟩

end Report

namespace Plan

/-- Go through the parts of a plan, and end with the closing remarks if nothing
    stops the chore. -/
def runItems (closing : List Line) : List Item → Script → Report
  | [], _ => ⟨closing, [], .ok ()⟩
  | .remark line :: rest, script => (runItems closing rest script).prepend [line] []
  | .step s :: rest, script =>
    match script.start with
    | .error cause => ⟨[s.announcement], [], .error ⟨s.startFailure, some cause⟩⟩
    | .ok (answer, script) =>
      if answer.succeeded then
        (runItems closing rest script).prepend (s.announcement :: s.onSuccess answer) [s.command]
      else if s.required then
        ⟨s.announcement :: s.onFailure answer, [s.command], .error ⟨s.exitFailure, none⟩⟩
      else
        (runItems closing rest script).prepend (s.announcement :: s.onFailure answer) [s.command]

def run (plan : Plan) (script : Script) : Report := runItems plan.closing plan.items script

/-- The steps of a plan, without the remarks. -/
def steps (plan : Plan) : List Step :=
  plan.items.filterMap fun
    | .remark _ => none
    | .step s => some s

end Plan

end Chore

end Stencil
