import Stencil.Proofs.Chore.Testing

/-!
# What Can Stop a Chore

All that a chore takes from starting the tool is a signal. If the tool cannot be
started it is the reason given for that. Of an answer it is less: a step that is
required passes on whether the tool succeeded, and a step that is not required
passes on that the chore may go on. The commands and the result of a chore are a
function of these signals, so whatever else differs between two scripts, the
texts in their answers or the failures that are forgiven, does not show in them.

What the tool prints is shown, so it does show among the lines of the report. The
closing message cannot be mistaken for any of them, though. It is set in a style
of its own, and it is printed by the chores that succeed and by no others.

## Main definitions

* `Step.signal`: What a step takes from an answer.
* `Plan.Alike`: Two scripts that give the same signals.
* `Chore.commands`: The commands of a chore.
* `Step.Mandatory`: The steps that have to succeed.
* `Chore.message`: The closing message of a chore.
* `Chore.Orderly`: A chore keeps to its plan.

## Theorems

* `Plan.runItems_alike`: Commands and result depend on the signals alone.
* `Plan.mem_lines_runItems`: Where the lines of a report come from.
* `Chore.commands_steps`: Which commands the plans consist of.
* `Chore.required_iff_mandatory`: Which steps have to succeed.
* `Chore.message_mem_iff`: Which chores print their closing message.
* `Chore.plan_orderly`: Every chore keeps to its plan, and the signals decide
  how far it gets.
-/

namespace Stencil

namespace Chore

namespace Step

/-- Whether the chore goes on behind a step. -/
def goesOn (s : Step) (a : Answer) : Bool := !s.required || a.succeeded

/-- What a step takes from an answer, or from there being none. -/
def signal (s : Step) (reply : Except String Answer) : Except String Bool := reply.map s.goesOn

/-- The reason why the tool could not be started is passed on as it is. -/
theorem reply_of_signal_error {s : Step} {reply : Except String Answer} {cause : String}
    (h : s.signal reply = .error cause) : reply = .error cause := by
  cases reply with
  | error reason => rw [Except.error.inj h]
  | ok a => exact absurd h (by simp [signal, Except.map])

theorem reply_of_signal_ok {s : Step} {reply : Except String Answer} {on : Bool}
    (h : s.signal reply = .ok on) : ∃ a, reply = .ok a ∧ s.goesOn a = on := by
  cases reply with
  | error reason => exact absurd h (by simp [signal, Except.map])
  | ok a => exact ⟨a, rfl, Except.ok.inj h⟩

/-- What is printed behind a step. -/
def remarks (s : Step) (a : Answer) : List Line :=
  if a.succeeded then s.onSuccess a else s.onFailure a

/-- A line that a step may print, whatever the tool answers. -/
def Prints (s : Step) (line : Line) : Prop := line = s.announcement ∨ ∃ a, line ∈ s.remarks a

end Step

/-- A line that a part of a plan may print. -/
def Item.Prints : Item → Line → Prop
  | .remark own, line => line = own
  | .step s, line => s.Prints line

namespace Plan

/-- Two scripts give the steps of a plan the same signals. -/
def Alike (planned : List Step) (script other : Script) : Prop :=
  ∀ (i : Nat) (s : Step), planned[i]? = some s →
    s.signal (script.reply i) = s.signal (other.reply i)

theorem Alike.cons {s : Step} {planned : List Step} {script other rest rest' : Script}
    (h : Alike (s :: planned) script other)
    (hrest : ∀ i, rest.reply i = script.reply (i + 1))
    (hrest' : ∀ i, rest'.reply i = other.reply (i + 1)) : Alike planned rest rest' := by
  intro i t ht
  rw [hrest, hrest']
  exact h (i + 1) t ht

section

variable {closing : List Line} {items : List Item} {s : Step} {script rest : Script} {a : Answer}

theorem runItems_unstarted {cause : String} (hstart : script.start = .error cause) :
    runItems closing (.step s :: items) script =
      ⟨[s.announcement], [], .error ⟨s.startFailure, some cause⟩⟩ := by
  rw [runItems, hstart]

/-- Behind a step that the tool was started for, the chore goes on or ends. -/
theorem runItems_started (hstart : script.start = .ok (a, rest)) :
    runItems closing (.step s :: items) script =
      if s.goesOn a then
        (runItems closing items rest).prepend (s.announcement :: s.remarks a) [s.command]
      else
        ⟨s.announcement :: s.remarks a, [s.command], .error ⟨s.exitFailure, none⟩⟩ := by
  rw [runItems, hstart, Step.goesOn, Step.remarks]
  cases hsucceeded : a.succeeded with
  | true => simp only [hsucceeded, Bool.or_true, if_true]
  -- A failure ends the chore exactly if success was required.
  | false => cases hrequired : s.required <;> simp [hsucceeded]

/-- Every line of a report is printed by a part of the plan, or closes a chore
    that succeeds. -/
theorem mem_lines_runItems {line : Line} (h : line ∈ (runItems closing items script).lines) :
    (∃ item ∈ items, item.Prints line) ∨
      (line ∈ closing ∧ (runItems closing items script).result = .ok ()) := by
  induction items generalizing script with
  | nil => exact Or.inr ⟨h, rfl⟩
  | cons item items ih =>
      -- What is printed here is printed by a part of the plan.
      have hhere : item.Prints line → ∃ found ∈ item :: items, found.Prints line :=
        fun hprints => ⟨item, List.mem_cons_self, hprints⟩
      -- What comes from further on stays what it is.
      have hlater : ∀ rest, line ∈ (runItems closing items rest).lines →
          (∃ found ∈ item :: items, found.Prints line) ∨
            (line ∈ closing ∧ (runItems closing items rest).result = .ok ()) :=
        fun rest hline => (ih hline).imp_left
          (fun ⟨found, hfound, hprints⟩ => ⟨found, List.mem_cons_of_mem item hfound, hprints⟩)
      cases item with
      | remark own =>
          rcases List.mem_cons.mp h with hown | hline
          · exact Or.inl (hhere hown)
          · exact hlater script hline
      | step s =>
          have hprints : ∀ a, line ∈ s.announcement :: s.remarks a → s.Prints line :=
            fun a hown => (List.mem_cons.mp hown).imp_right (fun hremark => ⟨a, hremark⟩)
          cases hstart : script.start with
          | error cause =>
              -- Only the announcement was printed.
              rw [runItems_unstarted hstart] at h
              exact Or.inl (hhere (Or.inl (List.mem_singleton.mp h)))
          | ok reply =>
              rcases reply with ⟨a, rest⟩
              rw [runItems_started hstart] at h ⊢
              by_cases hon : s.goesOn a = true
              · rw [if_pos hon] at h ⊢
                rcases List.mem_append.mp h with hown | hline
                · exact Or.inl (hhere (hprints a hown))
                · exact hlater rest hline
              · rw [if_neg hon] at h
                exact Or.inl (hhere (hprints a h))

/-- A chore that succeeds ends with the closing remarks. -/
theorem closing_isSuffix (h : (runItems closing items script).result = .ok ()) :
    closing <:+ (runItems closing items script).lines := by
  induction items generalizing script with
  | nil => exact List.suffix_rfl
  | cons item items ih =>
      cases item with
      | remark own => exact (ih h).trans (List.suffix_cons own _)
      | step s =>
          cases hstart : script.start with
          | error cause =>
              rw [runItems_unstarted hstart] at h
              exact absurd h (by simp only [reduceCtorEq, not_false_eq_true])
          | ok reply =>
              rcases reply with ⟨a, rest⟩
              rw [runItems_started hstart] at h ⊢
              by_cases hon : s.goesOn a = true
              · rw [if_pos hon] at h ⊢
                exact (ih h).trans (List.suffix_append _ _)
              · rw [if_neg hon] at h
                exact absurd h (by simp only [reduceCtorEq, not_false_eq_true])

end

/-- Commands and result depend on the signals alone, by induction on the plan. -/
theorem runItems_alike (closing : List Line) (items : List Item) {script other : Script}
    (h : Alike (steps ⟨items, closing⟩) script other) :
    (runItems closing items script).commands = (runItems closing items other).commands ∧
      (runItems closing items script).result = (runItems closing items other).result := by
  induction items generalizing script other with
  | nil => exact ⟨rfl, rfl⟩
  | cons item items ih =>
      cases item with
      | remark line => exact ih h
      | step s =>
          have hsteps : steps ⟨.step s :: items, closing⟩ = s :: steps ⟨items, closing⟩ := rfl
          rw [hsteps] at h
          have hsignal : s.signal (script.reply 0) = s.signal (other.reply 0) := h 0 s rfl
          cases hreply : script.reply 0 with
          | error cause =>
              rw [hreply] at hsignal
              have hreply' := Step.reply_of_signal_error hsignal.symm
              rw [runItems_unstarted (Script.start_of_error hreply),
                runItems_unstarted (Script.start_of_error hreply')]
              exact ⟨rfl, rfl⟩
          | ok a =>
              rw [hreply] at hsignal
              rcases Step.reply_of_signal_ok hsignal.symm with ⟨b, hreply', hsame⟩
              rcases Script.start_of_ok hreply with ⟨rest, hstart, hrest⟩
              rcases Script.start_of_ok hreply' with ⟨rest', hstart', hrest'⟩
              -- Both scripts go on alike, and the step takes the same from both.
              rcases ih (h.cons hrest hrest') with ⟨hcommands, hresult⟩
              rw [runItems_started hstart, runItems_started hstart', hsame]
              cases s.goesOn a with
              | true => exact ⟨congrArg (s.command :: ·) hcommands, hresult⟩
              | false => exact ⟨rfl, rfl⟩

end Plan

/-! ## The three plans -/

/-- The commands of a chore, as they would be given by hand. -/
def commands : Chore → List Command
  | check true =>
    [⟨["check", "-p", "formatter", "--no-default-features"], none⟩,
      ⟨["check", "-p", "formatter", "--no-default-features", "--features", "std,print,tracing"],
        none⟩,
      ⟨["clippy", "--workspace", "--all-targets", "--", "-D", "warnings"], none⟩,
      ⟨["fmt", "--all", "--check"], none⟩]
  | check false =>
    [⟨["check", "-p", "formatter", "--no-default-features"], none⟩,
      ⟨["check", "-p", "formatter", "--no-default-features", "--features", "std,print,tracing"],
        none⟩,
      ⟨["check", "-p", "formatter", "--no-default-features", "--target",
        "thumbv7em-none-eabihf"], none⟩,
      ⟨["check", "-p", "formatter", "--no-default-features", "--target",
        "thumbv7em-none-eabihf", "--features", "defmt"], none⟩,
      ⟨["clippy", "--workspace", "--all-targets", "--", "-D", "warnings"], none⟩,
      ⟨["fmt", "--all", "--check"], none⟩]
  | document openAfter =>
    [⟨["doc", "-p", "formatter", "--no-deps", "--no-default-features", "--target-dir",
        "target/doc-no-std"], some "-D warnings"⟩,
      ⟨["doc", "-p", "formatter", "--no-deps", "--no-default-features", "--target-dir",
        "target/doc-std", "--features", "std,print"] ++ (if openAfter then ["--open"] else []),
        some "-D warnings"⟩]
  | test unit integration =>
    (if integration then [] else
      [⟨["test", "-p", "formatter", "--lib"], none⟩,
        ⟨["test", "-p", "formatter", "--lib", "--features", "std,print,tracing"], none⟩]) ++
    (if unit then [] else
      [⟨["test", "-p", "formatter", "--test", "render_calls"], none⟩,
        ⟨["test", "-p", "formatter", "--test", "proptest_numeric", "--test",
          "proptest_scanner"], none⟩]) ++
    [⟨["test", "-p", "formatter", "--doc"], none⟩]

/-- The plan of a chore has a step for each of its commands, and no others. -/
theorem commands_steps (c : Chore) : c.plan.steps.map Step.command = c.commands := by
  cases c with
  | check hostOnly => cases hostOnly <;> rfl
  | document openAfter => cases openAfter <;> rfl
  | test unit integration => cases unit <;> cases integration <;> rfl

theorem Plan.mem_steps {plan : Plan} {s : Step} (h : s ∈ plan.steps) : .step s ∈ plan.items := by
  rcases List.mem_filterMap.mp h with ⟨item, hitem, hstep⟩
  cases item with
  | remark line => exact absurd hstep (by simp)
  | step t => exact Option.some.inj hstep ▸ hitem

theorem step_notMem_opening (title : String) (s : Step) : .step s ∉ opening title := by
  simp [opening]

/-- The steps that have to succeed: the builds, the interfaces to document, and
    the suites of both groups. -/
inductive Step.Mandatory : Step → Prop
  | build (b : Build) : b ∈ builds → Mandatory (checkBuild b)
  | interface (openAfter : Bool) (i : Interface) : Mandatory (documentInterface openAfter i)
  | suite (s : Suite) : s ∈ groups → Mandatory (runSuite s)

theorem Step.Mandatory.required {s : Step} (h : s.Mandatory) : s.required = true := by
  cases h with
  | build b hb => rfl
  | interface openAfter i => rfl
  | suite s hs => exact required_of_groups hs

/-- What is run is of one of the groups, or the examples in the documentation. -/
theorem mem_suites {unit integration : Bool} {s : Suite} (h : s ∈ suites unit integration) :
    s ∈ groups ∨ s = documentationSuite := by
  rw [suites, List.mem_append, List.mem_singleton] at h
  refine h.imp_left (fun hs => ?_)
  rcases List.mem_append.mp hs with hunit | hintegration
  · cases integration with
    | false => exact List.mem_append_left _ hunit
    | true => exact absurd hunit List.not_mem_nil
  · cases unit with
    | false => exact List.mem_append_right _ hintegration
    | true => exact absurd hintegration List.not_mem_nil

/-- The steps that are marked as required are those that have to succeed. -/
theorem required_iff_mandatory {c : Chore} {s : Step} (hs : s ∈ c.plan.steps) :
    s.required = true ↔ s.Mandatory := by
  refine ⟨fun hrequired => ?_, Step.Mandatory.required⟩
  have hitem := Plan.mem_steps hs
  cases c with
  | check hostOnly =>
      rcases List.mem_append.mp hitem with hitem | hother
      · rcases List.mem_append.mp hitem with hopening | hbuild
        · exact absurd hopening (step_notMem_opening _ s)
        · rcases List.mem_map.mp hbuild with ⟨b, hb, hstep⟩
          unfold buildItem at hstep
          split at hstep
          · -- A build that is left out is a remark.
            exact absurd hstep (by simp)
          · exact Item.step.inj hstep ▸ .build b hb
      · -- The lints and the layout check are forgiven.
        simp only [List.mem_cons, Item.step.injEq, List.not_mem_nil, or_false] at hother
        rcases hother with rfl | rfl
        · exact absurd hrequired (by decide)
        · exact absurd hrequired (by decide)
  | document openAfter =>
      rcases List.mem_append.mp hitem with hopening | hinterface
      · exact absurd hopening (step_notMem_opening _ s)
      · simp only [List.mem_cons, Item.step.injEq, List.not_mem_nil, or_false] at hinterface
        rcases hinterface with rfl | rfl
        · exact .interface _ _
        · exact .interface _ _
  | test unit integration =>
      rcases List.mem_append.mp hitem with hopening | hsuite
      · exact absurd hopening (step_notMem_opening _ s)
      · rcases List.mem_map.mp hsuite with ⟨t, ht, hstep⟩
        -- Only the suite of the documentation is not required.
        rw [← Item.step.inj hstep] at hrequired ⊢
        rcases mem_suites ht with hgroup | rfl
        · exact .suite t hgroup
        · exact absurd hrequired (by decide)

/-- The closing message of a chore. -/
def message : Chore → Line
  | check _ => completed "All checks completed"
  | document _ => completed "Documentation built"
  | test _ _ => completed "All tests completed"

theorem message_mem_closing (c : Chore) : c.message ∈ c.plan.closing := by
  cases c with
  | check hostOnly => exact List.mem_cons_self
  | document openAfter => exact List.mem_cons_of_mem _ List.mem_cons_self
  | test unit integration => exact List.mem_cons_self

theorem style_message (c : Chore) : c.message.style = .strong .green := by
  cases c <;> rfl

/-- A part of a plan leaves the style of the closing message alone. -/
def Item.Modest (item : Item) : Prop := ∀ line, item.Prints line → line.style ≠ .strong .green

theorem modest_remark {line : Line} (h : line.style ≠ .strong .green) :
    (Item.remark line).Modest := by
  rintro own rfl
  exact h

/-- A step is modest if its lines are, those printed behind a success and those
    behind a failure. -/
theorem modest_step {s : Step} (hannouncement : s.announcement.style ≠ .strong .green)
    (hsuccess : ∀ a, ∀ line ∈ s.onSuccess a, line.style ≠ .strong .green)
    (hfailure : ∀ a, ∀ line ∈ s.onFailure a, line.style ≠ .strong .green) :
    (Item.step s).Modest := by
  rintro line (rfl | ⟨a, hline⟩)
  · exact hannouncement
  · rw [Step.remarks] at hline
    split at hline
    · exact hsuccess a line hline
    · exact hfailure a line hline

theorem modest_opening (title : String) : ∀ item ∈ opening title, item.Modest := by
  intro item hitem
  simp only [opening, List.mem_cons, List.not_mem_nil, or_false] at hitem
  rcases hitem with rfl | rfl | rfl
  all_goals exact modest_remark (by simp [Line.blank, Line.say, Style.plain, Style.strong])

theorem modest_buildItem (hostOnly : Bool) (b : Build) : (buildItem hostOnly b).Modest := by
  rw [buildItem]
  split
  · exact modest_remark (by simp [Line.say, Style.faint, Style.strong])
  · refine modest_step ?_ (fun a => ?_) (fun a => ?_)
    all_goals simp [checkBuild, announce, failed, note, Line.blank, Line.say, Line.timed,
      Style.plain, Style.coloured, Style.strong]

theorem modest_lints : (Item.step lints).Modest := by
  refine modest_step ?_ (fun a => ?_) (fun a => ?_)
  all_goals simp [lints, announce, warned, note, Line.blank, Line.say, Line.timed, Style.plain,
    Style.coloured, Style.strong]

theorem modest_layout : (Item.step layout).Modest := by
  refine modest_step ?_ (fun a => ?_) (fun a => ?_)
  all_goals simp [layout, announce, warned, note, Line.blank, Line.say, Style.plain,
    Style.coloured, Style.strong]

theorem modest_documentInterface (openAfter : Bool) (i : Interface) :
    (Item.step (documentInterface openAfter i)).Modest := by
  refine modest_step ?_ (fun a => ?_) (fun a => ?_)
  all_goals simp [documentInterface, announce, failed, note, Line.blank, Line.say, Line.timed,
    Style.plain, Style.coloured, Style.strong]

/-- A suite prints nothing in the style of the closing message, even if the tool did.
    -/
theorem modest_runSuite (s : Suite) : (Item.step (runSuite s)).Modest := by
  refine modest_step ?_ (fun a => ?_) (fun a => ?_)
  · simp [runSuite, announce, Line.say, Style.coloured, Style.strong]
  · simp [runSuite, Line.blank, Line.say, Line.timed, Style.plain, Style.coloured, Style.strong]
  · rw [runSuite]
    split
    · rw [List.forall_mem_append]
      refine ⟨by simp [failed, Line.blank, Line.say, Style.plain, Style.strong], ?_⟩
      -- The output of a suite that failed is shown line by line, without a style.
      intro line hline
      rcases List.mem_map.mp hline with ⟨text, -, rfl⟩
      exact show Style.plain ≠ .strong .green by decide
    · simp [warned, Line.blank, Line.say, Style.plain, Style.strong]

/-- No part of a plan can print the closing message. -/
theorem modest_plan (c : Chore) : ∀ item ∈ c.plan.items, item.Modest := by
  intro item hitem
  cases c with
  | check hostOnly =>
      rcases List.mem_append.mp hitem with hitem | hitem
      · rcases List.mem_append.mp hitem with hopening | hbuild
        · exact modest_opening _ item hopening
        · rcases List.mem_map.mp hbuild with ⟨b, -, rfl⟩
          exact modest_buildItem hostOnly b
      · simp only [List.mem_cons, List.not_mem_nil, or_false] at hitem
        rcases hitem with rfl | rfl
        · exact modest_lints
        · exact modest_layout
  | document openAfter =>
      rcases List.mem_append.mp hitem with hopening | hinterface
      · exact modest_opening _ item hopening
      · simp only [List.mem_cons, List.not_mem_nil, or_false] at hinterface
        rcases hinterface with rfl | rfl
        · exact modest_documentInterface _ _
        · exact modest_documentInterface _ _
  | test unit integration =>
      rcases List.mem_append.mp hitem with hopening | hsuite
      · exact modest_opening _ item hopening
      · rcases List.mem_map.mp hsuite with ⟨s, -, rfl⟩
        exact modest_runSuite s

/-- A chore that prints its closing message has succeeded, and it does print it
    then. -/
theorem message_mem_iff (c : Chore) (script : Script) :
    c.message ∈ (c.plan.run script).lines ↔ (c.plan.run script).result = .ok () := by
  refine ⟨fun hmessage => ?_, fun hok => ?_⟩
  · rcases Plan.mem_lines_runItems hmessage with ⟨item, hitem, hprints⟩ | ⟨-, hok⟩
    -- A part of the plan would have printed it, and none has that style.
    · exact absurd (style_message c) (modest_plan c item hitem c.message hprints)
    · exact hok
  · exact (Plan.closing_isSuffix hok).subset (message_mem_closing c)

/-- A chore keeps to its plan. -/
structure Orderly (c : Chore) (script : Script) (report : Report) : Prop where
  /-- It goes through the steps in order, up to the first that cannot be started or
      that has to succeed and does not. The former is a failure with a cause, the
      latter one without. -/
  course : Plan.Course c.plan.steps script report
  /-- It succeeds if there is no such step, and only then. -/
  succeeds : report.result = .ok () ↔ Plan.Passes c.plan.steps script c.plan.steps.length
  /-- It prints its closing message if it succeeds, and only then. -/
  closed : c.message ∈ report.lines ↔ report.result = .ok ()

/-- Every chore keeps to its plan, which starts the commands of the chore and in
    which the steps that have to succeed are the builds, the interfaces and the suites
    of both groups. How far it gets and how it ends are decided by whether the tool
    can be started, and by whether it succeeds at those steps, and by nothing else
    that it answers. -/
theorem plan_orderly (c : Chore) (script : Script) :
    Orderly c script (c.plan.run script) ∧
      (∀ s ∈ c.plan.steps, s.required = true ↔ s.Mandatory) ∧
      (∀ other, Plan.Alike c.plan.steps script other →
        (c.plan.run script).commands = (c.plan.run other).commands ∧
          (c.plan.run script).result = (c.plan.run other).result) ∧
      c.plan.steps.map Step.command = c.commands := by
  have hcourse := Plan.run_course c.plan script
  refine ⟨⟨hcourse, hcourse.succeeds_iff, message_mem_iff c script⟩,
    fun s hs => required_iff_mandatory hs, fun other halike => ?_, commands_steps c⟩
  exact Plan.runItems_alike c.plan.closing c.plan.items halike

/-- Four builds succeed, and then the lints fail with a text that is not well-formed. -/
def lintsFail : Script :=
  ⟨List.replicate 4 Answer.silentSuccess ++ [⟨101, [], [0xFF]⟩], .silentSuccess⟩

/-- Lints that fail change neither the commands nor the result. -/
theorem plan_orderly_lints : Plan.Alike (check false).plan.steps lintsFail ⟨[], .silentSuccess⟩ ∧
    ((check false).plan.run lintsFail).commands =
      ((check false).plan.run ⟨[], .silentSuccess⟩).commands ∧
    ((check false).plan.run lintsFail).result = .ok () := by
  have halike : Plan.Alike (check false).plan.steps lintsFail ⟨[], .silentSuccess⟩ := by
    intro i s hs
    -- The fifth step is the one that differs, and its failure is forgiven.
    rcases i with _ | _ | _ | _ | _ | i
    case succ.succ.succ.succ.zero => obtain rfl : lints = s := Option.some.inj hs; rfl
    all_goals rfl
  rcases (plan_orderly (check false) lintsFail).2.2.1 _ halike with ⟨hcommands, hresult⟩
  exact ⟨halike, hcommands, hresult.trans rfl⟩

end Chore

end Stencil
