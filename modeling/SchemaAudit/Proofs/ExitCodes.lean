/-
**Exit codes and the ways in which a run ends.**

A run ends in one of four ways: it shows the reports of a lint, it tells its version or how it is
used, it fails, or it was never understood.  The codes 0, 1 and 2 are meant for the first two, and
so they are used wherever a command line is understood.  A command line that is misused ends with
the code of warnings.

Main definitions:

* `Ending`, `EndsWith` — **the ways in which a run ends**;
* `Ending.exitCode` — the exit code that belongs to each of them;
* `Separated` — **the exit codes tell the outcomes of lints from all other endings**.

Main results:

* `exists_endsWith` — every run ends in such a way, with its exit code;
* `separated_of_endsWith` — a run that was understood has a code that tells what came of it;
* `separated_iff` — **exit codes separate exactly the runs of command lines that are understood**.
-/

import SchemaAudit.Proofs.LintRuns

set_option relaxedAutoImplicit false
set_option autoImplicit false

namespace SchemaAudit

/-- Some report has an issue of the severity. -/
def Report.AnyHas (severity : Severity) (reports : List Report) : Prop :=
  ∃ report ∈ reports, ∃ issue ∈ report.issues, issue.severity = severity

instance (severity : Severity) (reports : List Report) :
    Decidable (Report.AnyHas severity reports) :=
  inferInstanceAs
    (Decidable (∃ report ∈ reports, ∃ issue ∈ report.issues, issue.severity = severity))

theorem Failure.three_le_exitCode (failure : Failure) : 3 ≤ failure.exitCode := by
  have := failure.exitCode_mem
  simp only [List.mem_cons, List.not_mem_nil, or_false] at this
  omega

namespace Cli

/-! ### Endings -/

/-- How a run ends. -/
inductive Ending where
  /-- A lint was completed with these reports. -/
  | shown (reports : List Report)
  /-- The version or help was asked for. -/
  | told
  /-- A lint failed. -/
  | failed (failure : Failure)
  /-- The command line asks for nothing that there is. -/
  | misused

/-- **The ways in which a run ends.** -/
inductive EndsWith (around : Surroundings) (fs : FileSystem) (arguments : List String) :
    Ending → Prop
  | shown {options : LintOptions} {reports : List Report} :
      Command.ofArguments? arguments = some (.lint options) → Completes around fs options reports →
      EndsWith around fs arguments (.shown reports)
  | told {command : Command} : Command.ofArguments? arguments = some command →
      (∀ options, command ≠ .lint options) → EndsWith around fs arguments .told
  | failed {options : LintOptions} {failure : Failure} :
      Command.ofArguments? arguments = some (.lint options) →
      FirstFailure around fs options failure → EndsWith around fs arguments (.failed failure)
  | misused : Command.ofArguments? arguments = none → EndsWith around fs arguments .misused

/-- The exit code that belongs to an ending. -/
def Ending.exitCode : Ending → ℕ
  | .shown reports =>
    if Report.AnyHas .error reports then 1 else if Report.AnyHas .warning reports then 2 else 0
  | .told => 0
  | .failed failure => failure.exitCode
  | .misused => 2

variable {around : Surroundings} {fs : FileSystem} {arguments : List String}

/-- A lint ends with its reports or with a failure. -/
theorem exists_endsWith_of_lint {options : LintOptions}
    (h : Command.ofArguments? arguments = some (.lint options)) :
    ∃ ending, EndsWith around fs arguments ending ∧
      (runLint around fs options).exitCode = ending.exitCode := by
  rcases exists_firstFailure_or_completes around fs options with ⟨failure, first⟩ | ⟨reports, all⟩
  · exact ⟨.failed failure, .failed h first, first.tellsOnly.exitCode_eq⟩
  · exact ⟨.shown reports, .shown h all, all.showsAll.exitCode⟩

/-- **Every run ends in one of the four ways**, with the exit code that belongs to it. -/
theorem exists_endsWith (around : Surroundings) (fs : FileSystem) (arguments : List String) :
    ∃ ending, EndsWith around fs arguments ending ∧
      (run around fs arguments).exitCode = ending.exitCode := by
  rw [run]
  cases h : Command.ofArguments? arguments with
  | none => exact ⟨.misused, .misused h, rfl⟩
  | some command =>
      cases command with
      | lint options => exact exists_endsWith_of_lint h
      | version => exact ⟨.told, .told h (by simp), rfl⟩
      | versionOption => exact ⟨.told, .told h (by simp), rfl⟩
      | help => exact ⟨.told, .told h (by simp), rfl⟩

/-! ### Outcomes and failures apart -/

/-- **The exit code of a run tells what came of it**: the codes 0 to 2 are those of lints that were
completed, or of a text that was asked for, and all other endings have greater ones. -/
structure Separated (around : Surroundings) (fs : FileSystem) (arguments : List String) : Prop where
  warning : (run around fs arguments).exitCode = 2 →
    ∃ reports, EndsWith around fs arguments (.shown reports) ∧
      Report.AnyHas .warning reports ∧ ¬Report.AnyHas .error reports
  error : (run around fs arguments).exitCode = 1 →
    ∃ reports, EndsWith around fs arguments (.shown reports) ∧ Report.AnyHas .error reports
  ok : (run around fs arguments).exitCode = 0 → EndsWith around fs arguments .told ∨
    ∃ reports, EndsWith around fs arguments (.shown reports) ∧
      ¬Report.AnyHas .error reports ∧ ¬Report.AnyHas .warning reports
  failure : ¬EndsWith around fs arguments .told →
    (∀ reports, ¬EndsWith around fs arguments (.shown reports)) →
      3 ≤ (run around fs arguments).exitCode

/-- A run that was understood has a code that tells what came of it. -/
theorem separated_of_endsWith {ending : Ending} (h : EndsWith around fs arguments ending)
    (hcode : (run around fs arguments).exitCode = ending.exitCode) (hne : ending ≠ .misused) :
    Separated around fs arguments := by
  cases ending with
  | shown reports =>
      have outcome : (∀ reports, ¬EndsWith around fs arguments (.shown reports)) →
          3 ≤ (run around fs arguments).exitCode := fun none => absurd h (none reports)
      by_cases herror : Report.AnyHas .error reports
      · rw [Ending.exitCode, if_pos herror] at hcode
        exact ⟨by omega, fun _ => ⟨reports, h, herror⟩, by omega, fun _ => outcome⟩
      · rw [Ending.exitCode, if_neg herror] at hcode
        by_cases hwarning : Report.AnyHas .warning reports
        · rw [if_pos hwarning] at hcode
          exact ⟨fun _ => ⟨reports, h, hwarning, herror⟩, by omega, by omega, fun _ => outcome⟩
        · rw [if_neg hwarning] at hcode
          exact ⟨by omega, by omega, fun _ => .inr ⟨reports, h, herror, hwarning⟩,
            fun _ => outcome⟩
  | told =>
      rw [Ending.exitCode] at hcode
      exact ⟨by omega, by omega, fun _ => .inl h, fun none => absurd h none⟩
  | failed failure =>
      have hthree : 3 ≤ (run around fs arguments).exitCode := hcode ▸ failure.three_le_exitCode
      exact ⟨by omega, by omega, by omega, fun _ _ => hthree⟩
  | misused => exact absurd rfl hne

/-- **Exit codes separate the outcomes of lints from failures exactly where the command line is
understood.**  A command line that is misused ends with 2, as a lint with warnings does. -/
theorem separated_iff (around : Surroundings) (fs : FileSystem) (arguments : List String) :
    Separated around fs arguments ↔ ∃ command, Command.ofArguments? arguments = some command := by
  obtain ⟨ending, hending, hcode⟩ := exists_endsWith around fs arguments
  constructor
  · intro h
    cases hending with
    | shown hlint => exact ⟨_, hlint⟩
    | told hcommand => exact ⟨_, hcommand⟩
    | failed hlint => exact ⟨_, hlint⟩
    | misused hnone =>
        -- the code 2 would be that of a lint with warnings, and no lint was asked for
        obtain ⟨reports, hshown, -⟩ := h.warning hcode
        cases hshown with
        | shown hlint => exact ⟨_, hlint⟩
  · rintro ⟨command, hcommand⟩
    refine separated_of_endsWith hending hcode ?_
    rintro rfl
    cases hending with
    | misused hnone =>
        rw [hnone] at hcommand
        cases hcommand

/-- Without a path to lint, the exit code is that of a lint with warnings. -/
theorem not_separated_lint : ¬Separated offline ⟨.directory [], []⟩ ["lint"] := by
  intro h
  have hnone : Command.ofArguments? ["lint"] = none := by decide +kernel
  have hcode : (run offline ⟨.directory [], []⟩ ["lint"]).exitCode = 2 := by
    rw [run, hnone]
  obtain ⟨reports, hshown, -⟩ := h.warning hcode
  cases hshown with
  | shown hlint =>
      rw [hnone] at hlint
      cases hlint

end Cli

end SchemaAudit
