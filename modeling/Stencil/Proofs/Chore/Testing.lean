import Stencil.Chore.Catalog
import Stencil.Proofs.Chore.Running

/-!
# What a Test Run Tests

A run of the tests is worth something if it started the suites that were asked
for, and if its success means that they succeeded. A flag asks for the group it
names, and no flag for both groups.

Each flag leaves out the other group, so with one flag or none the suites asked
for are the ones that run, in order and up to the first that fails. With both
flags each leaves out what the other names. Only the examples in the
documentation are tested then, which are allowed to fail, so the run succeeds
whatever state the tests are in.

## Main definitions

* `Chore.asked`: The suites that the flags ask for.
* `Chore.Thorough`: A run of the tests does what is expected of it.

## Theorems

* `Chore.thorough_of_one_flag`: Runs with one flag or none are thorough.
* `Chore.thorough_iff`: Which runs are.
* `Chore.both_flags_test_nothing`: A run that succeeds without any test.
-/

namespace Stencil

namespace Chore

/-- The tool can be started for the `i`-th time, and it succeeds. -/
def Script.Succeeds (script : Script) (i : Nat) : Prop :=
  ∃ a : Answer, script.reply i = .ok a ∧ a.succeeded = true

/-- The suites of both groups. -/
def groups : List Suite := unitSuites ++ integrationSuites

/-- The suites that are asked for: a group if its flag is given, and both if
    none is. -/
def asked (unit integration : Bool) : List Suite :=
  (if unit || !integration then unitSuites else []) ++
    (if integration || !unit then integrationSuites else [])

/-- What is expected of a run of the tests. -/
structure Thorough (unit integration : Bool) (script : Script) (report : Report) : Prop where
  /-- A suite that is asked for is started if those before it succeeded and the
      tool can be started, and only then. -/
  started : ∀ (i : Nat) (s : Suite), (asked unit integration)[i]? = some s →
    (report.commands[i]? = some (runSuite s).command ↔
      (∀ j < i, script.Succeeds j) ∧ ∃ a, script.reply i = .ok a)
  /-- Nothing else is started before them or between them. -/
  in_order : report.commands.take (asked unit integration).length <+:
    (asked unit integration).map fun s => (runSuite s).command
  /-- A run that succeeds has started a suite. -/
  tested : report.result = .ok () →
    ∃ i : Nat, ∃ s ∈ groups, report.commands[i]? = some (runSuite s).command
  /-- In a run that succeeds every suite that was started succeeded. -/
  conclusive : report.result = .ok () → ∀ i : Nat, ∀ s ∈ groups,
    report.commands[i]? = some (runSuite s).command → script.Succeeds i

theorem steps_testPlan (unit integration : Bool) :
    (testPlan unit integration).steps = (suites unit integration).map runSuite := by
  cases unit <;> cases integration <;> rfl

/-- With one flag or none, the suites asked for are run. -/
theorem suites_eq_asked {unit integration : Bool} (h : ¬ (unit = true ∧ integration = true)) :
    suites unit integration = asked unit integration ++ [documentationSuite] := by
  cases unit <;> cases integration
  case true.true => exact absurd ⟨rfl, rfl⟩ h
  all_goals rfl

theorem mem_groups_of_asked {unit integration : Bool} {s : Suite}
    (h : s ∈ asked unit integration) : s ∈ groups := by
  have hsub : ∀ (b c : Bool), (if b then unitSuites else []) ++
      (if c then integrationSuites else []) ⊆ groups := by
    intro b c
    cases b <;> cases c <;> simp [groups]
  exact hsub _ _ h

theorem required_of_groups {s : Suite} (h : s ∈ groups) : s.required = true := by
  -- There are four of them.
  have hall : ∀ s ∈ groups, s.required = true := by decide
  exact hall s h

/-- The command of a suite tells that it is required. -/
theorem required_of_command {s t : Suite} (hs : s ∈ groups)
    (ht : t ∈ groups ++ [documentationSuite])
    (h : (runSuite t).command = (runSuite s).command) : t.required = true := by
  have hall : ∀ t ∈ groups ++ [documentationSuite], ∀ s ∈ groups,
      (runSuite t).command = (runSuite s).command → t.required = true := by decide
  exact hall t ht s hs h

section

variable {unit integration : Bool} {script : Script} {after : List Step} {n : Nat} {s : Suite}

/-- The suites asked for stand first in a plan. -/
theorem planned_of_asked (h : (asked unit integration)[n]? = some s) :
    ((asked unit integration).map runSuite ++ after)[n]? = some (runSuite s) := by
  have hn : n < (asked unit integration).length := (List.getElem?_eq_some_iff.mp h).1
  -- They are the first suites, so what stands behind them does not count.
  rw [List.getElem?_append_left (by rw [List.length_map]; exact hn), List.getElem?_map, h,
    Option.map_some]

/-- All suites asked for are required, so the chore goes on behind them only if
    they succeed. -/
theorem passes_asked_iff (hn : n ≤ (asked unit integration).length) :
    Plan.Passes ((asked unit integration).map runSuite ++ after) script n ↔
      ∀ j < n, script.Succeeds j := by
  refine ⟨fun h j hj => ?_, fun h j hj s _ => ?_⟩
  · have hasked := Nat.lt_of_lt_of_le hj hn
    rcases h j hj _ (planned_of_asked (List.getElem?_eq_getElem hasked)) with ⟨a, ha, hsucceeded⟩
    exact ⟨a, ha, hsucceeded (required_of_groups (mem_groups_of_asked (List.getElem_mem hasked)))⟩
  · exact (h j hj).imp fun a ha => ⟨ha.1, fun _ => ha.2⟩

/-- With one flag or none a run is thorough, whatever the tool answers. -/
theorem thorough_of_one_flag (h : ¬ (unit = true ∧ integration = true)) (script : Script) :
    Thorough unit integration script ((testPlan unit integration).run script) := by
  -- The plan is the suites asked for, and behind them that of the documentation.
  have hcourse := Plan.run_course (testPlan unit integration) script
  rw [steps_testPlan, suites_eq_asked h, List.map_append] at hcourse
  generalize (testPlan unit integration).run script = report at hcourse ⊢
  have hstarted : ∀ (i : Nat) (s : Suite), (asked unit integration)[i]? = some s →
      (report.commands[i]? = some (runSuite s).command ↔
        (∀ j < i, script.Succeeds j) ∧ ∃ a, script.reply i = .ok a) := by
    intro i s hs
    have hi : i < (asked unit integration).length := (List.getElem?_eq_some_iff.mp hs).1
    rw [← passes_asked_iff (Nat.le_of_lt hi)]
    exact hcourse.started_iff (planned_of_asked hs)
  refine ⟨hstarted, ?_, fun hok => ?_, fun hok i s hs hcommand => ?_⟩
  · -- What is started first comes first in the plan.
    have hplanned := hcourse.commands_isPrefix
    rw [List.map_append, List.map_map] at hplanned
    refine List.prefix_of_prefix_length_le ((List.take_prefix _ _).trans hplanned)
      (List.prefix_append _ _) ?_
    rw [List.length_take, List.length_map]
    exact Nat.min_le_left _ _
  · -- A group is asked for in any case, and its first suite is started first.
    have hpos : 0 < (asked unit integration).length := by
      cases unit <;> cases integration <;> decide
    have hfirst := List.getElem?_eq_getElem hpos
    have hpass := hcourse.succeeds_iff.mp hok
    rcases hpass 0 (by rw [List.length_append, List.length_map]; omega) _
      (planned_of_asked hfirst) with ⟨a, ha, -⟩
    exact ⟨0, _, mem_groups_of_asked (List.getElem_mem hpos),
      (hstarted 0 _ hfirst).mpr ⟨fun j hj => absurd hj (Nat.not_lt_zero j), a, ha⟩⟩
  · -- The command belongs to a step of the plan, and it tells that the step is required.
    rcases hcourse.exists_planned hcommand with ⟨step, hstep, hsame⟩
    rcases hcourse.succeeds_iff.mp hok i (List.getElem?_eq_some_iff.mp hstep).1 step hstep with
      ⟨a, ha, hsucceeded⟩
    refine ⟨a, ha, hsucceeded ?_⟩
    rw [← List.map_append, List.getElem?_map, Option.map_eq_some_iff] at hstep
    rcases hstep with ⟨t, ht, rfl⟩
    have hmem : t ∈ groups ++ [documentationSuite] := by
      rcases List.mem_append.mp (List.mem_of_getElem? ht) with hasked | hdoc
      · exact List.mem_append_left _ (mem_groups_of_asked hasked)
      · exact List.mem_append_right _ hdoc
    exact required_of_command hs hmem hsame

end

/-- Without the tool nothing is started and nothing succeeds, as is expected. -/
theorem thorough_of_missing {unit integration : Bool} {script : Script} {report : Report}
    {first : Step} {more : List Step} (hcourse : Plan.Course (first :: more) script report)
    {cause : String} (hnone : script.reply 0 = .error cause) :
    Thorough unit integration script report := by
  -- A first command would have been started, and the tool has no answer for it.
  have hidle : report.commands = [] := by
    cases hcommands : report.commands with
    | nil => rfl
    | cons c rest =>
        have hc : report.commands[0]? = some c := by rw [hcommands, List.getElem?_cons_zero]
        rcases hcourse.exists_planned hc with ⟨step, hstep, rfl⟩
        rcases (hcourse.started_iff hstep).mp hc with ⟨-, a, ha⟩
        exact absurd (hnone.symm.trans ha) (by simp)
  have hfailed : report.result ≠ .ok () := by
    intro hok
    rcases hcourse.succeeds_iff.mp hok 0 (Nat.zero_lt_succ _) first rfl with ⟨a, ha, -⟩
    exact absurd (hnone.symm.trans ha) (by simp)
  refine ⟨fun i s _ => ?_, ?_, fun hok => absurd hok hfailed, fun hok => absurd hok hfailed⟩
  · rw [hidle, List.getElem?_nil]
    refine iff_of_false (by simp) ?_
    rintro ⟨hbefore, a, ha⟩
    -- The first suite cannot be started, and those behind it wait for it to succeed.
    cases i with
    | zero => exact absurd (hnone.symm.trans ha) (by simp)
    | succ i =>
        rcases hbefore 0 (Nat.zero_lt_succ i) with ⟨b, hb, -⟩
        exact absurd (hnone.symm.trans hb) (by simp)
  · rw [hidle, List.take_nil]
    exact List.nil_prefix

/-- A run of the tests does what is expected of it unless both flags are given
    and the tool can be started. -/
theorem thorough_iff (unit integration : Bool) (script : Script) :
    Thorough unit integration script ((Chore.test unit integration).plan.run script) ↔
      ¬ (unit = true ∧ integration = true ∧ ∃ a, script.reply 0 = .ok a) := by
  by_cases hboth : unit = true ∧ integration = true
  · rcases hboth with ⟨rfl, rfl⟩
    -- The plan has one step, and it is none of those asked for.
    have hcourse : Plan.Course [runSuite documentationSuite] script
        ((Chore.test true true).plan.run script) := Plan.run_course (testPlan true true) script
    refine ⟨?_, fun hnone => ?_⟩
    · rintro hthorough ⟨-, -, a, ha⟩
      -- The first suite asked for would have to be started first.
      have hunit := (hthorough.started 0 _ rfl).mpr
        ⟨fun j hj => absurd hj (Nat.not_lt_zero j), a, ha⟩
      rcases hcourse.exists_planned hunit with ⟨step, hstep, hsame⟩
      obtain rfl : runSuite documentationSuite = step := Option.some.inj hstep
      exact absurd hsame (by decide)
    · cases hreply : script.reply 0 with
      | error cause => exact thorough_of_missing hcourse hreply
      | ok a => exact absurd ⟨rfl, rfl, a, hreply⟩ hnone
  · exact iff_of_true (thorough_of_one_flag hboth script) (fun h => hboth ⟨h.1, h.2.1⟩)

/-- With both flags the examples in the documentation are all that is tested, and the
    run succeeds. -/
theorem both_flags_test_nothing :
    ¬ (∀ (unit integration : Bool) (script : Script),
        Thorough unit integration script ((Chore.test unit integration).plan.run script)) ∧
      ((Chore.test true true).plan.run ⟨[], .silentSuccess⟩).result = .ok () ∧
      ((Chore.test true true).plan.run ⟨[], .silentSuccess⟩).commands =
        [(runSuite documentationSuite).command] := by
  refine ⟨fun hall => ?_, rfl, rfl⟩
  -- The run succeeds, but the one command that it started is that of no suite asked for.
  rcases (hall true true ⟨[], .silentSuccess⟩).tested rfl with ⟨i, s, hs, hcommand⟩
  have hdoc : (runSuite s).command = (runSuite documentationSuite).command := by
    have hmem := List.mem_of_getElem? hcommand
    exact List.mem_singleton.mp hmem
  have hother : ∀ s ∈ groups,
      (runSuite s).command ≠ (runSuite documentationSuite).command := by decide
  exact hother s hs hdoc

end Chore

end Stencil
