import Stencil.Chore.Plan
import Stencil.Chore.Summary
import Stencil.Utf8

/-!
# The Catalog of Chores

The three chores of a formatter's development, each as a plan.

* Checking builds the formatter for every platform and feature set, and then
  runs the lints and the layout check, whose findings are shown and forgiven.
* Documenting builds the documentation of both programming interfaces, warnings
  being errors, and may open the larger one afterwards.
* Testing runs the suites. Either of the two groups can be chosen by a flag,
  and naming one leaves out the other. The examples in the documentation are
  tested too, and their failure is forgiven.

## Main definitions

* `Chore`: A chore and its flags.
* `Chore.plan`: What it does.
-/

namespace Stencil

/-- A chore, and the flags it was given. -/
inductive Chore
  /-- Check the builds, those for the host alone if asked. -/
  | check (hostOnly : Bool)
  /-- Document the interfaces, and open the last one if asked. -/
  | document (openAfter : Bool)
  /-- Run the tests of the groups that the other flag does not leave out. -/
  | test (unit integration : Bool)
  deriving DecidableEq, Repr

namespace Chore

/-- Text from the tool, whatever its bytes are. -/
def decoded (bytes : List UInt8) : Text := Utf8.lossy bytes

/-- The same, ready to be printed. -/
def quoted (bytes : List UInt8) : String := String.ofList (decoded bytes)

/-- The opening lines of a chore. -/
def opening (title : String) : List Item :=
  [.remark (.blank .output), .remark (.say .output (.strong .cyan) title),
    .remark (.blank .output)]

def announce (what : String) : Line := .say .output (.coloured .cyan) ("  " ++ what ++ "...")

/-- A failure that ends the chore. -/
def failed (what : String) : Line := .say .error (.strong .red) ("  ✗ " ++ what ++ " failed")

/-- A failure that is forgiven. -/
def warned (what : String) : Line := .say .error (.strong .yellow) ("  ⚠ " ++ what)

def note (text : String) : Line := .say .error .plain text

/-- The closing line of a chore, with the time that all of it took. -/
def completed (what : String) : Line :=
  .timed (.strong .green) ("✓ " ++ what ++ " in ") "s"

/-- A feature set as arguments of the build tool. -/
def featureArguments (features : String) : List String :=
  if features.isEmpty then [] else ["--features", features]

/-! ## Checking -/

/-- A build of the formatter: for which platform and with which features. -/
structure Build where
  label : String
  /-- The platform, where it is not the host. -/
  target : Option String
  /-- The features, separated by commas. -/
  features : String

/-- The platform without an operating system. -/
def embeddedTarget : String := "thumbv7em-none-eabihf"

def builds : List Build :=
  [⟨"host (no_std, no features)", none, ""⟩,
    ⟨"host (std, print, tracing)", none, "std,print,tracing"⟩,
    ⟨"STM32 (no_std)", some embeddedTarget, ""⟩,
    ⟨"STM32 (defmt)", some embeddedTarget, "defmt"⟩]

def checkBuild (b : Build) : Step where
  announcement := announce ("Checking " ++ b.label)
  command :=
    ⟨["check", "-p", "formatter", "--no-default-features"] ++
      (b.target.map fun t => ["--target", t]).getD [] ++ featureArguments b.features, none⟩
  required := true
  startFailure := "Failed to check " ++ b.label
  exitFailure := b.label ++ " check failed"
  onSuccess _ :=
    [.timed (.coloured .green) ("  ✓ " ++ b.label ++ " passed in ") "s", .blank .output]
  onFailure a := [failed (b.label ++ " check"), .blank .error, note (quoted a.errors)]

/-- What is done about one build: it is checked, unless it is for another
    platform and only the host is asked for. -/
def buildItem (hostOnly : Bool) (b : Build) : Item :=
  -- Only a build for another platform is skipped, and no command runs for it.
  if hostOnly ∧ b.target.isSome then
    .remark (.say .output .faint ("  - skipping " ++ b.label))
  else .step (checkBuild b)

def lints : Step where
  announcement := announce "Running clippy lints"
  command := ⟨["clippy", "--workspace", "--all-targets", "--", "-D", "warnings"], none⟩
  required := false
  startFailure := "Failed to run clippy"
  exitFailure := "clippy failed"
  onSuccess _ := [.timed (.coloured .green) "  ✓ Clippy passed in " "s", .blank .output]
  onFailure a :=
    [warned "Clippy warnings found", .blank .error, note (quoted a.errors), .blank .output]

def layout : Step where
  announcement := announce "Checking code formatting"
  command := ⟨["fmt", "--all", "--check"], none⟩
  required := false
  startFailure := "Failed to run cargo fmt"
  exitFailure := "cargo fmt failed"
  onSuccess _ :=
    [.say .output (.coloured .green) "  ✓ Formatting check passed", .blank .output]
  onFailure _ :=
    [warned "Formatting issues found", note "     Run 'cargo fmt --all' to fix", .blank .output]

def checkPlan (hostOnly : Bool) : Plan where
  items :=
    opening "🔍 Checking formatter builds..." ++ builds.map (buildItem hostOnly) ++
      [.step lints, .step layout]
  closing := [completed "All checks completed", .blank .output]

/-! ## Documenting -/

/-- A programming interface to document, in a place of its own. -/
structure Interface where
  label : String
  /-- The features, separated by commas. -/
  features : String
  directory : String

def bareInterface : Interface := ⟨"no_std API", "", "target/doc-no-std"⟩

/-- The interface with all features of the host, which contains the other. -/
def hostInterface : Interface :=
  ⟨"std API (print macros enabled)", "std,print", "target/doc-std"⟩

def documentInterface (openAfter : Bool) (i : Interface) : Step where
  announcement := announce ("Documenting " ++ i.label)
  command :=
    ⟨["doc", "-p", "formatter", "--no-deps", "--no-default-features", "--target-dir",
        i.directory] ++ featureArguments i.features ++ (if openAfter then ["--open"] else []),
      some "-D warnings"⟩
  required := true
  startFailure := "Failed to document " ++ i.label
  exitFailure := i.label ++ " documentation failed"
  onSuccess _ :=
    [.timed (.coloured .green) ("  ✓ " ++ i.label ++ " in ")
      ("s → " ++ i.directory ++ "/doc/formatter/index.html")]
  onFailure a := [failed (i.label ++ " docs"), .blank .error, note (quoted a.errors)]

def documentPlan (openAfter : Bool) : Plan where
  items :=
    opening "📚 Documenting formatter feature sets..." ++
      [.step (documentInterface false bareInterface),
        .step (documentInterface openAfter hostInterface)]
  closing := [.blank .output, completed "Documentation built", .blank .output]

/-! ## Testing -/

structure Suite where
  label : String
  selection : List String
  /-- Whether the chore fails with it. -/
  required : Bool

def unitSuites : List Suite :=
  [⟨"unit tests (no features)", ["--lib"], true⟩,
    ⟨"unit tests (host features)", ["--lib", "--features", "std,print,tracing"], true⟩]

def integrationSuites : List Suite :=
  [⟨"integration tests", ["--test", "render_calls"], true⟩,
    ⟨"property tests", ["--test", "proptest_numeric", "--test", "proptest_scanner"], true⟩]

def documentationSuite : Suite := ⟨"doc tests", ["--doc"], false⟩

/-- What is shown of the tests that failed, line by line. -/
def indented (a : Answer) : List Line :=
  (decoded a.output).lines.map fun line => note ("  " ++ String.ofList line)

def runSuite (s : Suite) : Step where
  announcement := announce ("Running " ++ s.label)
  command := ⟨["test", "-p", "formatter"] ++ s.selection, none⟩
  required := s.required
  startFailure := "Failed to run " ++ s.label
  exitFailure := s.label ++ " failed"
  onSuccess a :=
    [.timed (.coloured .green)
      ("  ✓ " ++ s.label ++ " passed " ++ String.ofList (Summary.extract (decoded a.output)) ++
        " in ") "s", .blank .output]
  onFailure a :=
    if s.required then [failed s.label, .blank .error] ++ indented a
    else [warned (s.label ++ " failed"), .blank .output]

/-- The suites that run. Each flag leaves out the other group. -/
def suites (unit integration : Bool) : List Suite :=
  -- With both flags neither group is left, and with none both are.
  (if integration then [] else unitSuites) ++ (if unit then [] else integrationSuites) ++
    [documentationSuite]

def testPlan (unit integration : Bool) : Plan where
  items :=
    opening "🧪 Running tests..." ++
      (suites unit integration).map fun s => .step (runSuite s)
  closing := [completed "All tests completed", .blank .output]

def plan : Chore → Plan
  | check hostOnly => checkPlan hostOnly
  | document openAfter => documentPlan openAfter
  | test unit integration => testPlan unit integration

end Chore

end Stencil
