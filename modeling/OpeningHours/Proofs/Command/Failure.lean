import OpeningHours.Proofs.Command.Script

/-!
Runs that fail. Such a run leaves nothing on the standard output, since every request fails before it prints.
Misused arguments are told by exit code 2, whatever there is to be read. A schedule that cannot be loaded is
what a run reports, whatever else is wrong: nothing but the schedule has been looked at by then.
-/

namespace OpeningHours.Command

/-! ### Exit codes -/

section ExitCode

variable (args : List String) (inputs : Inputs)

/-- How a run ends: with misused arguments, without a fault, or where a request fails. -/
theorem outcome_cases :
    (Invocation.ofArguments? args = none ∧ outcome args inputs = .misused) ∨
    (Invocation.ofArguments? args ≠ none ∧ (outcome args inputs).exitCode = 0) ∨
    ∃ r failure s, Invocation.ofArguments? args = some (.run r) ∧ r.run ⟨inputs, []⟩ = .error failure s ∧
      outcome args inputs = .failed ⟨failure, s.printed⟩ := by
  cases ha : Invocation.ofArguments? args with
  | none => exact .inl ⟨rfl, by simp only [outcome, ha]⟩
  | some invocation =>
    right
    have hsome : some invocation ≠ none := Option.some_ne_none invocation
    cases invocation with
    | help => exact .inl ⟨hsome, by simp only [outcome, ha, Invocation.outcome, Outcome.exitCode]⟩
    | version => exact .inl ⟨hsome, by simp only [outcome, ha, Invocation.outcome, Outcome.exitCode]⟩
    | run r =>
      cases hr : r.run ⟨inputs, []⟩ with
      | ok _ s => exact .inl ⟨hsome, by simp only [outcome, ha, Invocation.outcome, hr, Outcome.exitCode]⟩
      | error failure s =>
        exact .inr ⟨r, failure, s, rfl, hr, by simp only [outcome, ha, Invocation.outcome, hr]⟩

/-- Only misused arguments lead to exit code 2. -/
theorem exitCode_eq_two_iff : (outcome args inputs).exitCode = 2 ↔ Invocation.ofArguments? args = none := by
  have hfailed : ∀ halt, (Outcome.failed halt).exitCode ≠ 2 := fun _ => show (1 : UInt32) ≠ 2 by decide
  rcases outcome_cases args inputs with ⟨ha, ho⟩ | ⟨ha, hcode⟩ | ⟨r, failure, s, ha, -, ho⟩
  · exact iff_of_true (by rw [ho]; rfl) ha
  · exact iff_of_false (by rw [hcode]; decide) ha
  · exact iff_of_false (ho ▸ hfailed _) (by simp [ha])

/-- A run that does not succeed prints nothing. -/
theorem output_of_exitCode_ne_zero (hcode : (outcome args inputs).exitCode ≠ 0) :
    (outcome args inputs).output = "" := by
  rcases outcome_cases args inputs with ⟨-, ho⟩ | ⟨-, hzero⟩ | ⟨r, failure, s, -, hr, ho⟩
  · rw [ho]
    rfl
  · exact absurd hzero hcode
  · have hprinted : s.printed = [] := r.safe_run _ _ _ hr
    rw [ho, hprinted]
    rfl

end ExitCode

/-! ### Schedules that cannot be loaded -/

/-- The run ends with exit code 1 and this error, and it has printed nothing. -/
structure FailsWith (args : List String) (inputs : Inputs) (message : String) : Prop where
  exitCode : (outcome args inputs).exitCode = 1
  output : (outcome args inputs).output = ""
  message : ∃ halt, outcome args inputs = .failed halt ∧ halt.message = message

section Load

variable {args : List String} {inputs : Inputs} {source text : String} {failure : Failure} {r : Request}
  {s : Session}

theorem schedule_of_missing (hmissing : inputs.text? source = none) :
    Script.schedule source ⟨inputs, []⟩ = .error (.unreadable source) ⟨inputs, []⟩ := by
  refine Script.bind_eq_error_iff.2 (.inl ?_)
  simp only [Script.read, Inputs.read, hmissing]

theorem schedule_of_refused (htext : inputs.text? source = some text)
    (hrefused : ∀ s, Schedule.parse text ≠ .ok s) :
    ∃ s, Script.schedule source ⟨inputs, []⟩ = .error (.badSchedule source) s := by
  obtain ⟨s, hread⟩ : ∃ s, Script.read source ⟨inputs, []⟩ = .ok text s := by
    simp only [Script.read, Inputs.read, htext]
    exact ⟨_, rfl⟩
  refine ⟨s, Script.bind_eq_error_iff.2 (.inr ⟨text, s, hread, ?_⟩)⟩
  cases hp : Schedule.parse text with
  | ok x => exact absurd hp (hrefused x)
  | error fault => rfl

/-- A request goes no further than a schedule that cannot be loaded. -/
theorem failsWith_of_schedule (ha : Invocation.ofArguments? args = some (.run r))
    (hs : Script.schedule r.source ⟨inputs, []⟩ = .error failure s) :
    FailsWith args inputs failure.message := by
  have hrun : r.run ⟨inputs, []⟩ = .error failure s := Script.bind_eq_error_iff.2 (.inl hs)
  have ho : outcome args inputs = .failed ⟨failure, s.printed⟩ := by
    simp only [outcome, ha, Invocation.outcome, hrun]
  have hcode : (outcome args inputs).exitCode = 1 := by
    rw [ho]
    rfl
  exact ⟨hcode, output_of_exitCode_ne_zero args inputs (by rw [hcode]; decide), _, ho, rfl⟩

/-- Only a run that succeeds prints anything. Whether the arguments are misused does not depend on what there
is to be read. If they are not, and ask for something that needs a schedule, then a source that is missing or
holds no schedule is what the run reports, whatever else it was asked for. -/
theorem failing_runs :
    (∀ args inputs, (outcome args inputs).exitCode ≠ 0 → (outcome args inputs).output = "") ∧
    (∀ args inputs inputs', (outcome args inputs).exitCode = 2 ↔ (outcome args inputs').exitCode = 2) ∧
    ∀ args inputs r, Invocation.ofArguments? args = some (.run r) →
      (inputs.text? r.source = none → FailsWith args inputs
        (if r.source = "-" then "failed to read stdin" else "failed to read " ++ r.source)) ∧
      ∀ text, inputs.text? r.source = some text → (∀ s, Schedule.parse text ≠ .ok s) →
        FailsWith args inputs ("failed to load working hours from " ++ r.source) := by
  refine ⟨output_of_exitCode_ne_zero, fun args inputs inputs' => ?_, fun args inputs r ha => ⟨?_, ?_⟩⟩
  · rw [exitCode_eq_two_iff, exitCode_eq_two_iff]
  · intro hmissing
    exact failsWith_of_schedule ha (schedule_of_missing hmissing)
  · intro text htext hrefused
    obtain ⟨s, hs⟩ := schedule_of_refused htext hrefused
    exact failsWith_of_schedule ha hs

/-- A missing file is reported before a range that cannot be read, a text that holds no schedule before a
catalog that holds none; `someday` is no day, whatever the file may hold. -/
theorem failing_runs_load :
    FailsWith ["set-day", "week.json", "mon", "noon"] ⟨some "", fun _ => none⟩ "failed to read week.json" ∧
    FailsWith ["timezone", "-", "zones.json"] ⟨some "[[[0,1]", fun _ => some "[["⟩
      "failed to load working hours from -" ∧
    (outcome ["day", "week.json", "someday"] ⟨none, fun _ => none⟩).exitCode = 2 ∧
    (outcome ["day", "week.json", "someday"] ⟨none, fun _ => some "[]"⟩).exitCode = 2 ∧
    (outcome ["day", "week.json", "someday"] ⟨none, fun _ => some "[]"⟩).output = "" := by
  obtain ⟨hsilent, hmisused, hload⟩ := failing_runs
  have hranges : Invocation.ofArguments? ["set-day", "week.json", "mon", "noon"] =
      some (.run (.setDay "week.json" Weekday.monday ["noon"])) := by decide +kernel
  have hcatalog : Invocation.ofArguments? ["timezone", "-", "zones.json"] =
      some (.run (.timezone "-" "zones.json")) := by decide +kernel
  have hparse : ∀ s, Schedule.parse "[[[0,1]" ≠ .ok s := by
    have herror : Schedule.parse "[[[0,1]" = .error .badRecord := rfl
    simp [herror]
  have htwo : (outcome ["day", "week.json", "someday"] ⟨none, fun _ => none⟩).exitCode = 2 := by
    decide +kernel
  have htwo' := (hmisused _ _ ⟨none, fun _ => some "[]"⟩).1 htwo
  exact ⟨(hload _ _ _ hranges).1 rfl, (hload _ _ _ hcatalog).2 "[[[0,1]" rfl hparse, htwo, htwo',
    hsilent _ _ (by rw [htwo']; decide)⟩

end Load

end OpeningHours.Command
