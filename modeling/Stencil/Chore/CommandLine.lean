import Stencil.Chore.Catalog

/-!
# The Command Line

A command line names one chore and the flags of that chore, each at most once and
spelled in full. It is read from left to right, and the first argument that
decides the matter ends the reading: a request for help or for the version, or
an argument that has no place.

Short options can be written together, so an argument that starts like one of
them counts as it, whatever follows. A pair of dashes ends the options of a
chore; nothing may come after it.

## Main definitions

* `Request`: What a command line asks for.
* `Request.ofArguments`: Reading a command line.
* `Exit`: What the program leaves behind.
* `Request.serve`: Doing what was asked.
-/

namespace Stencil

namespace Chore

/-- What a command line asks for. -/
inductive Request
  | version
  | help
  | chore (t : Chore)
  | rejected
  deriving DecidableEq, Repr

namespace Request

/-- What the options of a chore come to. -/
inductive Options
  | given (flags : List String)
  | help
  /-- There is an argument that has no place. -/
  | rejected
  deriving DecidableEq, Repr

/-- Whether an argument is an option, in its long form or among short ones. -/
def isOption (long short arg : String) : Bool := arg = long || arg.startsWith short

/-- Read the options of a chore that knows some flags and was given others
    already. -/
def readOptions (known given : List String) : List String → Options
  | [] => .given given
  | ["--"] => .given given
  | arg :: rest =>
    -- A request for help is granted wherever it stands among the flags.
    if isOption "--help" "-h" arg then .help
    -- A flag that was given before has no place a second time.
    else if known.contains arg ∧ ¬ given.contains arg then readOptions known (arg :: given) rest
    else .rejected

/-- The request for a chore, made from the flags it was given. -/
def ofOptions (make : List String → Chore) : Options → Request
  | .given flags => .chore (make flags)
  | .help => .help
  | .rejected => .rejected

/-- Read the arguments of the named chore. -/
def ofChore (name : String) (args : List String) : Request :=
  match name with
  | "check" =>
    ofOptions (fun flags => .check (flags.contains "--host-only"))
      (readOptions ["--host-only"] [] args)
  | "test" =>
    ofOptions (fun flags => .test (flags.contains "--unit") (flags.contains "--integration"))
      (readOptions ["--unit", "--integration"] [] args)
  | "doc" =>
    ofOptions (fun flags => .document (flags.contains "--open")) (readOptions ["--open"] [] args)
  | _ => .rejected

def topics : List String := ["check", "test", "doc", "help"]

def ofArguments : List String → Request
  | [] => .rejected
  | arg :: rest =>
    if isOption "--version" "-V" arg then .version
    else if isOption "--help" "-h" arg then .help
    else if arg = "help" then
      match rest with
      | [] => .help
      | [topic] => if topics.contains topic then .help else .rejected
      | _ => .rejected
    else ofChore arg rest

end Request

/-- What the program leaves behind. -/
structure Exit where
  status : UInt8
  output : String
  errors : String
  commands : List Command

namespace Failure

/-- The account of a failure given on leaving, which is never styled. -/
def account (f : Failure) : String :=
  "Error: " ++ f.message ++
    (match f.cause with
    | none => ""
    | some cause => "\n\nCaused by:\n    " ++ cause) ++ "\n"

end Failure

namespace Report

/-- What a report prints on one channel. -/
def printed (styled : Bool) (elapsed : String) (channel : Channel) (r : Report) : String :=
  String.join ((r.lines.filter (·.channel = channel)).map (Line.render styled elapsed))

/-- What the program leaves behind after a chore. -/
def exit (styled : Bool) (elapsed : String) (r : Report) : Exit :=
  let output := r.printed styled elapsed .output
  let errors := r.printed styled elapsed .error
  match r.result with
  | .ok () => ⟨0, output, errors, r.commands⟩
  | .error f => ⟨1, output, errors ++ f.account, r.commands⟩

end Report

namespace Request

def usage : String :=
  "formatter development tasks\n\nUsage: xtask <COMMAND>\n\nCommands:\n" ++
    "  check [--host-only]            Check the builds of the formatter\n" ++
    "  test [--unit] [--integration]  Run its tests\n" ++
    "  doc [--open]                   Build its documentation\n" ++
    "  help                           Print this account\n"

/-- Do what was asked, with a build tool that answers as scripted. -/
def serve (styled : Bool) (elapsed : String) (script : Script) : Request → Exit
  | version => ⟨0, "xtask 0.1.0\n", "", []⟩
  | help => ⟨0, usage, "", []⟩
  | rejected => ⟨2, "", "error: invalid command line\n\n" ++ usage, []⟩
  | chore t => (t.plan.run script).exit styled elapsed

end Request

end Chore

end Stencil
