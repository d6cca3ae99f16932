import Stencil.Chore.Plan

/-!
# How a Chore Runs

A chore goes through the steps of its plan and stops at the first that does not
let it pass: one where the tool cannot be started, or a required one that the tool
does not succeed at. So there are three ways for it to end, and in each of them
the commands started are an initial segment of those planned.

Nothing else matters for the course of a chore. What the tool prints, the
remarks in between and the closing remarks are not mentioned in it.

## Main definitions

* `Script.reply`: What comes of starting the tool for the `i`-th time.
* `Step.Passed`: A step lets the chore go on.
* `Plan.Passes`: The first steps of a plan let the chore go on.
* `Plan.Course`: The ways for a chore to end.

## Theorems

* `Plan.run_course`: Every chore ends in one of these ways.
* `Plan.Course.commands_isPrefix`: The commands are an initial segment.
* `Plan.Course.started_iff`: Which steps of a plan are started.
* `Plan.Course.succeeds_iff`: Which chores succeed.
-/

namespace Stencil

namespace Chore

namespace Script

/-- What comes of starting the tool for the `i`-th time, counted from zero: its
    answer, or why it could not be started. -/
def reply (script : Script) (i : Nat) : Except String Answer :=
  match script.answers[i]?, script.afterwards with
  | some a, _ => .ok a
  | none, .silentSuccess => .ok .silentSuccess
  | none, .unavailable cause => .error cause

theorem start_of_error {script : Script} {cause : String} (h : script.reply 0 = .error cause) :
    script.start = .error cause := by
  rcases script with ⟨_ | ⟨a, rest⟩, afterwards⟩
  · -- There is no answer left, so all depends on what comes afterwards.
    cases afterwards with
    | silentSuccess => exact absurd h (by simp [reply])
    | unavailable reason =>
        simp only [reply, List.getElem?_nil, Except.error.injEq] at h
        rw [start, h]
  · exact absurd h (by simp [reply])

/-- Starting the tool uses up the first answer and leaves the others. -/
theorem start_of_ok {script : Script} {a : Answer} (h : script.reply 0 = .ok a) :
    ∃ rest, script.start = .ok (a, rest) ∧ ∀ i, rest.reply i = script.reply (i + 1) := by
  rcases script with ⟨_ | ⟨b, rest⟩, afterwards⟩
  · cases afterwards with
    | unavailable cause => exact absurd h (by simp [reply])
    | silentSuccess =>
        -- The tool has no answers left and goes on without them.
        obtain rfl : Answer.silentSuccess = a := Except.ok.inj h
        exact ⟨⟨[], .silentSuccess⟩, rfl, fun i => by simp [reply]⟩
  · obtain rfl : b = a := by cases afterwards <;> exact Except.ok.inj h
    exact ⟨⟨rest, afterwards⟩, rfl, fun i => by simp [reply]⟩

end Script

/-- A step lets the chore go on if the tool can be started, and if it succeeds
    where that is required. -/
def Step.Passed (s : Step) (reply : Except String Answer) : Prop :=
  ∃ a : Answer, reply = .ok a ∧ (s.required = true → a.succeeded = true)

theorem Step.not_passed_of_error (s : Step) (cause : String) : ¬ s.Passed (.error cause) :=
  fun ⟨_, h, _⟩ => absurd h (by simp)

theorem Step.not_passed_of_failed {s : Step} {a : Answer} (hrequired : s.required = true)
    (hfailed : a.succeeded = false) : ¬ s.Passed (.ok a) := by
  rintro ⟨b, hb, hsucceeded⟩
  rw [← Except.ok.inj hb, hfailed] at hsucceeded
  exact absurd (hsucceeded hrequired) Bool.false_ne_true

namespace Plan

variable {planned : List Step} {script rest : Script} {report : Report} {s : Step} {n : Nat}

/-- The first `n` steps let the chore go on. -/
def Passes (planned : List Step) (script : Script) (n : Nat) : Prop :=
  ∀ i < n, ∀ s, planned[i]? = some s → s.Passed (script.reply i)

/-- The ways for a chore to end. It goes through all steps, or stops at one
    behind some that let it pass. -/
inductive Course (planned : List Step) (script : Script) (report : Report) : Prop
  | completed : Passes planned script planned.length →
    report.commands = planned.map Step.command → report.result = .ok () →
    Course planned script report
  /-- The tool cannot be started. -/
  | unstarted (n : Nat) (s : Step) (cause : String) : planned[n]? = some s →
    Passes planned script n → script.reply n = .error cause →
    report.commands = (planned.take n).map Step.command →
    report.result = .error ⟨s.startFailure, some cause⟩ → Course planned script report
  /-- A required step fails. -/
  | broken (n : Nat) (s : Step) (a : Answer) : planned[n]? = some s → Passes planned script n →
    script.reply n = .ok a → s.required = true → a.succeeded = false →
    report.commands = (planned.take (n + 1)).map Step.command →
    report.result = .error ⟨s.exitFailure, none⟩ → Course planned script report

theorem passes_zero (planned : List Step) (script : Script) : Passes planned script 0 :=
  fun i hi => absurd hi (Nat.not_lt_zero i)

theorem Passes.cons (hs : s.Passed (script.reply 0))
    (hrest : ∀ i, rest.reply i = script.reply (i + 1)) (h : Passes planned rest n) :
    Passes (s :: planned) script (n + 1) := by
  intro i hi t ht
  cases i with
  -- The step in front is the one that has passed.
  | zero => exact Option.some.inj ht ▸ hs
  | succ i =>
      rw [← hrest i]
      exact h i (Nat.lt_of_succ_lt_succ hi) t ht

/-- A step that passes is put in front of whatever comes behind it. -/
theorem Course.cons (hs : s.Passed (script.reply 0))
    (hrest : ∀ i, rest.reply i = script.reply (i + 1)) (h : Course planned rest report)
    (lines : List Line) : Course (s :: planned) script (report.prepend lines [s.command]) := by
  cases h with
  | completed hpass hcommands hresult =>
      refine .completed (hpass.cons hs hrest) ?_ hresult
      simp only [Report.prepend, hcommands, List.singleton_append, List.map_cons]
  | unstarted n t cause ht hpass hreply hcommands hresult =>
      -- Behind the new step every place is one further on.
      refine .unstarted (n + 1) t cause ht (hpass.cons hs hrest) (hrest n ▸ hreply) ?_ hresult
      simp only [Report.prepend, hcommands, List.singleton_append, List.take_succ_cons,
        List.map_cons]
  | broken n t a ht hpass hreply hrequired hfailed hcommands hresult =>
      refine .broken (n + 1) t a ht (hpass.cons hs hrest) (hrest n ▸ hreply) hrequired hfailed ?_
        hresult
      simp only [Report.prepend, hcommands, List.singleton_append, List.take_succ_cons,
        List.map_cons]

/-- Remarks do not matter. -/
theorem Course.remark (h : Course planned script report) (lines : List Line) :
    Course planned script (report.prepend lines []) := by
  cases h with
  | completed hpass hcommands hresult => exact .completed hpass hcommands hresult
  | unstarted n t cause ht hpass hreply hcommands hresult =>
      exact .unstarted n t cause ht hpass hreply hcommands hresult
  | broken n t a ht hpass hreply hrequired hfailed hcommands hresult =>
      exact .broken n t a ht hpass hreply hrequired hfailed hcommands hresult

/-- Every chore ends in one of the three ways, by induction on the plan. -/
theorem runItems_course (closing : List Line) (items : List Item) (script : Script) :
    Course (steps ⟨items, closing⟩) script (runItems closing items script) := by
  induction items generalizing script with
  | nil => exact .completed (passes_zero [] script) rfl rfl
  | cons item items ih =>
      cases item with
      | remark line => exact (ih script).remark [line]
      | step s =>
          have hsteps : steps ⟨.step s :: items, closing⟩ = s :: steps ⟨items, closing⟩ := rfl
          rw [hsteps, runItems]
          cases hreply : script.reply 0 with
          | error cause =>
              rw [Script.start_of_error hreply]
              -- The chore ends here, before the command counts as started.
              exact .unstarted 0 s cause rfl (passes_zero _ script) hreply rfl rfl
          | ok a =>
              rcases Script.start_of_ok hreply with ⟨rest, hstart, hrest⟩
              rw [hstart]
              simp only []
              cases hsucceeded : a.succeeded with
              | true => exact (ih rest).cons ⟨a, hreply, fun _ => hsucceeded⟩ hrest _
              | false =>
                  cases hrequired : s.required with
                  | true =>
                      -- The chore ends here, and the command was started.
                      exact .broken 0 s a rfl (passes_zero _ script) hreply hrequired hsucceeded
                        rfl rfl
                  | false =>
                      -- The failure is forgiven.
                      refine (ih rest).cons ⟨a, hreply, fun h => ?_⟩ hrest _
                      exact absurd (hrequired.symm.trans h) Bool.false_ne_true

theorem run_course (plan : Plan) (script : Script) :
    Course plan.steps script (plan.run script) :=
  runItems_course plan.closing plan.items script

/-- The commands started are those of an initial segment of the plan. -/
theorem Course.commands_isPrefix (h : Course planned script report) :
    report.commands <+: planned.map Step.command := by
  cases h with
  | completed _ hcommands _ => exact hcommands ▸ List.prefix_refl _
  | unstarted n _ _ _ _ _ hcommands _ => exact hcommands ▸ (List.take_prefix n _).map _
  | broken n _ _ _ _ _ _ _ hcommands _ => exact hcommands ▸ (List.take_prefix (n + 1) _).map _

theorem Course.exists_planned (h : Course planned script report) {c : Command}
    (hc : report.commands[n]? = some c) : ∃ s, planned[n]? = some s ∧ s.command = c := by
  have hplanned := List.prefix_iff_getElem?.mp h.commands_isPrefix n
    (List.getElem?_eq_some_iff.mp hc).1
  rw [(List.getElem?_eq_some_iff.mp hc).2, List.getElem?_map, Option.map_eq_some_iff] at hplanned
  exact hplanned

/-- What comes before a step that does not let the chore pass. -/
theorem Passes.le (h : Passes planned script n) {k : Nat} (hk : planned[k]? = some s)
    (hstop : ¬ s.Passed (script.reply k)) : n ≤ k :=
  Nat.le_of_not_lt fun hlt => hstop (h k hlt s hk)

theorem Passes.mono (h : Passes planned script n) {k : Nat} (hk : k ≤ n) :
    Passes planned script k :=
  fun i hi => h i (Nat.lt_of_lt_of_le hi hk)

/-- A step is started exactly if all before it let the chore pass and the tool
    is there. -/
theorem Course.started_iff (h : Course planned script report) (hs : planned[n]? = some s) :
    report.commands[n]? = some s.command ↔
      Passes planned script n ∧ ∃ a, script.reply n = .ok a := by
  -- The commands started are those of the first steps, so a place among them is a bound.
  have htaken : ∀ k, ((planned.take k).map Step.command)[n]? = some s.command ↔ n < k := by
    intro k
    rw [List.getElem?_map, List.getElem?_take, hs]
    by_cases hk : n < k <;> simp [hk]
  cases h with
  | completed hpass hcommands _ =>
      have hn : n < planned.length := (List.getElem?_eq_some_iff.mp hs).1
      rcases hpass n hn s hs with ⟨a, ha, -⟩
      refine iff_of_true ?_ ⟨hpass.mono (Nat.le_of_lt hn), a, ha⟩
      rw [hcommands, List.getElem?_map, hs, Option.map_some]
  | unstarted k t cause ht hpass hreply hcommands _ =>
      rw [hcommands, htaken k]
      refine ⟨fun hn => ?_, fun ⟨hbefore, a, ha⟩ => ?_⟩
      · rcases hpass n hn s hs with ⟨a, ha, -⟩
        exact ⟨hpass.mono (Nat.le_of_lt hn), a, ha⟩
      · -- The step itself is the one that the tool is not there for.
        have hle := hbefore.le ht (hreply ▸ Step.not_passed_of_error t cause)
        refine Nat.lt_of_le_of_ne hle (fun heq => ?_)
        rw [heq, hreply] at ha
        exact absurd ha (by simp)
  | broken k t b ht hpass hreply hrequired hfailed hcommands _ =>
      have hstop : ¬ t.Passed (script.reply k) :=
        hreply ▸ Step.not_passed_of_failed hrequired hfailed
      rw [hcommands, htaken (k + 1), Nat.lt_succ_iff]
      refine ⟨fun hn => ⟨hpass.mono hn, ?_⟩, fun h => h.1.le ht hstop⟩
      -- The step that broke the chore was started as well.
      rcases Nat.lt_or_eq_of_le hn with hlt | heq
      · exact (hpass n hlt s hs).imp fun _ ha => ha.1
      · exact ⟨b, heq ▸ hreply⟩

/-- A chore succeeds exactly if every step lets it pass. -/
theorem Course.succeeds_iff (h : Course planned script report) :
    report.result = .ok () ↔ Passes planned script planned.length := by
  cases h with
  | completed hpass _ hresult => exact iff_of_true hresult hpass
  | unstarted k t cause ht _ hreply _ hresult =>
      refine iff_of_false (by simp [hresult]) (fun hpass => ?_)
      exact Step.not_passed_of_error t cause
        (hreply ▸ hpass k (List.getElem?_eq_some_iff.mp ht).1 t ht)
  | broken k t b ht _ hreply hrequired hfailed _ hresult =>
      refine iff_of_false (by simp [hresult]) (fun hpass => ?_)
      exact Step.not_passed_of_failed hrequired hfailed
        (hreply ▸ hpass k (List.getElem?_eq_some_iff.mp ht).1 t ht)

end Plan

end Chore

end Stencil
