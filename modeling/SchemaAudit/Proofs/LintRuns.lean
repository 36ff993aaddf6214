/-
**A lint run shows everything or nothing.**

A run asks for its configuration and then audits item after item: files, and what it fetches from
addresses.  While it does, it writes notes.  This module says which items these are and what the
first failure is, without following the run, and proves that a run with a failure shows nothing but
the first one, whatever succeeded before it or would fail after it, and that a run without a failure
shows the reports on all items.

Main definitions:

* `LintOptions.items` — the items that a run audits, in order;
* `Fails`, `FirstFailure` — a run fails, and **the failure that comes first**;
* `Completes` — the reports on all items, in order;
* `TellsOnly`, `ShowsAll` — an outcome that tells a failure and nothing else, and one that shows
  some reports.

Main results:

* `FirstFailure.unique` — no two failures come first;
* `auditSources_snd` — what is gathered are the reports on the items, or the first failure;
* `isErrorReport_of_mem_auditSources` — what is noted on the way reports no failure;
* `Report.exitCode_worstStatus` — the exit code of several reports;
* `run_shows_all_or_nothing` — **a lint run shows all reports or the first failure only**.
-/

import SchemaAudit.Proofs.Precedence
import SchemaAudit.Proofs.SettingsFile

set_option relaxedAutoImplicit false
set_option autoImplicit false

namespace SchemaAudit

/-! ### Failures of a traversal -/

section Traversal

variable {α β : Type} {f : α → Except Failure β} {xs : List α}

/-- A traversal succeeds with the results of its elements, in order. -/
theorem mapM_eq_ok_iff {ys : List β} :
    xs.mapM f = .ok ys ↔ List.Forall₂ (fun x y => f x = .ok y) xs ys := by
  induction xs generalizing ys with
  | nil => cases ys <;> simp [pure, Except.pure]
  | cons x rest ih =>
      rw [List.mapM_cons, Schema.bind_eq_ok_iff]
      constructor
      · rintro ⟨y, hy, h⟩
        obtain ⟨later, hlater, h⟩ := Schema.bind_eq_ok_iff.1 h
        cases h
        exact .cons hy (ih.1 hlater)
      · rintro (_ | ⟨hy, hrest⟩)
        exact ⟨_, hy, Schema.bind_eq_ok_iff.2 ⟨_, ih.2 hrest, rfl⟩⟩

/-- A traversal fails with the failure of the first element that fails. -/
theorem exists_of_mapM_eq_error {failure : Failure} (h : xs.mapM f = .error failure) :
    ∃ before x after, xs = before ++ x :: after ∧ (∀ y ∈ before, ∃ b, f y = .ok b) ∧
      f x = .error failure := by
  induction xs with
  | nil => cases h
  | cons x rest ih =>
      rw [List.mapM_cons] at h
      cases hx : f x with
      | error failure' =>
          rw [hx] at h
          cases h
          exact ⟨[], x, rest, rfl, by simp, hx⟩
      | ok y =>
          have later : rest.mapM f = .error failure := by
            rw [hx] at h
            cases hrest : rest.mapM f with
            | error failure' =>
                rw [hrest] at h
                cases h
                rfl
            | ok ys =>
                rw [hrest] at h
                cases h
          obtain ⟨before, x', after, rfl, hbefore, hfailure⟩ := ih later
          exact ⟨x :: before, x', after, rfl, List.forall_mem_cons.2 ⟨⟨y, hx⟩, hbefore⟩, hfailure⟩

theorem mapM_eq_error_of_first {before after : List α} {x : α} {failure : Failure}
    (hxs : xs = before ++ x :: after) (hbefore : ∀ y ∈ before, ∃ b, f y = .ok b)
    (hx : f x = .error failure) : xs.mapM f = .error failure := by
  subst hxs
  induction before with
  | nil =>
      rw [List.nil_append, List.mapM_cons, hx]
      rfl
  | cons y before ih =>
      obtain ⟨⟨b, hb⟩, hbefore⟩ := List.forall_mem_cons.1 hbefore
      rw [List.cons_append, List.mapM_cons, hb, ih hbefore]
      rfl

end Traversal

/-! ### Exit codes -/

theorem Failure.exitCode_mem (failure : Failure) : failure.exitCode ∈ [3, 4] := by
  cases failure <;> simp [exitCode]

theorem Status.worst_eq (outcomes : List Status) :
    worst outcomes =
      if .error ∈ outcomes then .error else if .warning ∈ outcomes then .warning else .ok := by
  induction outcomes with
  | nil => rfl
  | cons outcome rest ih =>
      rw [worst, List.foldr_cons, ← worst, ih]
      cases outcome <;> simp only [List.mem_cons, reduceCtorEq, false_or, true_or, if_true]
      · split_ifs <;> rfl
      · split_ifs <;> rfl
      · split_ifs <;> rfl

theorem Report.has_iff {report : Report} {severity : Severity} :
    report.has severity = true ↔ ∃ issue ∈ report.issues, issue.severity = severity := by
  simp [has, count, List.countP_pos_iff]

/-- **The exit code of several reports**: an issue that is an error decides first, then one that is
a warning. -/
theorem Report.exitCode_worstStatus (reports : List Report) :
    (worstStatus reports).exitCode =
      if ∃ report ∈ reports, ∃ issue ∈ report.issues, issue.severity = .error then 1
      else if ∃ report ∈ reports, ∃ issue ∈ report.issues, issue.severity = .warning then 2
      else 0 := by
  simp only [← has_iff]
  have errors : Status.error ∈ reports.map status ↔
      ∃ report ∈ reports, report.has .error = true := by
    simp only [List.mem_map, status]
    refine exists_congr fun report => and_congr_right fun _ => ?_
    split_ifs <;> simp_all
  have warnings : (¬∃ report ∈ reports, report.has .error = true) →
      (Status.warning ∈ reports.map status ↔ ∃ report ∈ reports, report.has .warning = true) := by
    intro none
    simp only [List.mem_map, status]
    refine exists_congr fun report => and_congr_right fun hreport => ?_
    have : ¬report.has .error = true := fun h => none ⟨report, hreport, h⟩
    split_ifs <;> simp_all
  rw [worstStatus, Status.worst_eq]
  by_cases herror : ∃ report ∈ reports, report.has .error = true
  · rw [if_pos (errors.2 herror), if_pos herror]
    rfl
  · rw [if_neg (mt errors.1 herror), if_neg herror]
    by_cases hwarning : ∃ report ∈ reports, report.has .warning = true
    · rw [if_pos ((warnings herror).2 hwarning), if_pos hwarning]
      rfl
    · rw [if_neg (mt (warnings herror).1 hwarning), if_neg hwarning]
      rfl

namespace Cli

/-! ### The items of a run -/

/-- What comes of the settings of a run. -/
def LintOptions.Settles (around : Surroundings) (fs : FileSystem) (options : LintOptions) :
    Except Failure Config → Prop :=
  Config.Settles around fs options.settings options.settingsFile (Path.ofText ".")

/-- The source is an address. -/
def IsAddress (source : String) : Prop :=
  ∃ rest, source = "http://" ++ rest ∨ source = "https://" ++ rest

theorem isUrl_iff {source : String} : isUrl source = true ↔ IsAddress source := by
  have starts (first : String) :
      first.toList.isPrefixOf source.toList = true ↔ ∃ rest, source = first ++ rest := by
    rw [List.isPrefixOf_iff_prefix]
    constructor
    · rintro ⟨rest, h⟩
      refine ⟨String.ofList rest, String.toList_injective ?_⟩
      rw [String.toList_append, String.toList_ofList, h]
    · rintro ⟨rest, rfl⟩
      rw [String.toList_append]
      exact List.prefix_append _ _
  rw [isUrl, Bool.or_eq_true, starts, starts, IsAddress, exists_or]

instance : DecidablePred IsAddress := fun _ => decidable_of_iff _ isUrl_iff

/-- The items that a source stands for: an address stands for itself, and a path for the files that
it collects. -/
def itemsOf (fs : FileSystem) (source : String) : List Item :=
  if IsAddress source then [.address source] else (fs.collect (Path.ofText source)).map .file

/-- **The items that a run audits**, in order. -/
def LintOptions.items (fs : FileSystem) (options : LintOptions) : List Item :=
  options.sources.flatMap (itemsOf fs)

/-- **The failure that comes first**: that of the configuration, or else that of the first item on
which there is no report. -/
inductive FirstFailure (around : Surroundings) (fs : FileSystem) (options : LintOptions) :
    Failure → Prop
  | config {failure : Failure} (failed : options.Settles around fs (.error failure)) :
      FirstFailure around fs options failure
  | item {config : Config} {before after : List Item} {item : Item} {failure : Failure}
      (settled : options.Settles around fs (.ok config))
      (items : options.items fs = before ++ item :: after)
      (audited : ∀ earlier ∈ before, ∃ report, earlier.Gives around fs config (.ok report))
      (failed : item.Gives around fs config (.error failure)) :
      FirstFailure around fs options failure

/-- The reports on all items, in order. -/
def Completes (around : Surroundings) (fs : FileSystem) (options : LintOptions)
    (reports : List Report) : Prop :=
  ∃ config, options.Settles around fs (.ok config) ∧
    List.Forall₂ (fun item report => item.Gives around fs config (.ok report))
      (options.items fs) reports

/-- Whether a line reports a failure. -/
def isErrorReport (line : String) : Bool := "Error: ".toList.isPrefixOf line.toList

/-- **An outcome that tells a failure and nothing else.** -/
structure TellsOnly (failure : Failure) (outcome : Outcome) : Prop where
  output : outcome.output = ""
  /-- There is one error report, and it is the message of the failure. -/
  report : outcome.notes.filter isErrorReport = ["Error: " ++ failure.message]
  /-- No other failure about the same thing is reported. -/
  noOther : ∀ other : Failure, other.subject = failure.subject →
    "Error: " ++ other.message ∈ outcome.notes → other = failure
  /-- The exit code is 4 if something could not be read or fetched, and else 3. -/
  exitCode : outcome.exitCode = 4 ∧ failure.OfAccess ∨ outcome.exitCode = 3 ∧ ¬failure.OfAccess

/-- **An outcome that shows some reports**, in a format. -/
structure ShowsAll (format : OutputFormat) (reports : List Report) (outcome : Outcome) : Prop where
  output : outcome.output = format.render reports ++ (if format = .json then "\n" else "")
  /-- There is no error report. -/
  report : outcome.notes.filter isErrorReport = []
  /-- The gravest issue decides the exit code. -/
  exitCode : outcome.exitCode =
    if ∃ report ∈ reports, ∃ issue ∈ report.issues, issue.severity = .error then 1
    else if ∃ report ∈ reports, ∃ issue ∈ report.issues, issue.severity = .warning then 2
    else 0

theorem TellsOnly.exitCode_eq {failure : Failure} {outcome : Outcome}
    (h : TellsOnly failure outcome) : outcome.exitCode = failure.exitCode := by
  rcases h.exitCode with ⟨hcode, access⟩ | ⟨hcode, noAccess⟩ <;>
    rcases failure.exitCode_eq with ⟨hcode', access'⟩ | ⟨hcode', noAccess'⟩
  · rw [hcode, hcode']
  · exact absurd access noAccess'
  · exact absurd access' noAccess
  · rw [hcode, hcode']

section FirstFailure

variable {around : Surroundings} {fs : FileSystem} {options : LintOptions}

theorem LintOptions.settles_iff {outcome : Except Failure Config} :
    options.Settles around fs outcome ↔
      Config.resolve around fs options.settings options.settingsFile (Path.ofText ".") = outcome :=
  Config.settles_iff

/-- A failure comes first exactly if the configuration or the audit of all items fails with it. -/
theorem firstFailure_iff {failure : Failure} :
    FirstFailure around fs options failure ↔
      options.Settles around fs (.error failure) ∨
        ∃ config, options.Settles around fs (.ok config) ∧
          (options.items fs).mapM (Item.audit around fs config) = .error failure := by
  constructor
  · rintro (failed | ⟨settled, items, audited, failed⟩)
    · exact .inl failed
    · simp only [Item.gives_iff] at audited failed
      exact .inr ⟨_, settled, mapM_eq_error_of_first items audited failed⟩
  · rintro (failed | ⟨config, settled, h⟩)
    · exact .config failed
    · obtain ⟨before, item, after, items, audited, failed⟩ := exists_of_mapM_eq_error h
      simp only [← Item.gives_iff] at audited failed
      exact .item settled items audited failed

/-- All items are reported on exactly if the audit of all items succeeds. -/
theorem completes_iff {reports : List Report} :
    Completes around fs options reports ↔
      ∃ config, options.Settles around fs (.ok config) ∧
        (options.items fs).mapM (Item.audit around fs config) = .ok reports := by
  simp only [Completes, mapM_eq_ok_iff, Item.gives_iff]

/-- No two failures come first. -/
theorem FirstFailure.unique {failure other : Failure} (h : FirstFailure around fs options failure)
    (h' : FirstFailure around fs options other) : failure = other := by
  simp only [firstFailure_iff, LintOptions.settles_iff] at h h'
  rcases h with failed | ⟨config, settled, failed⟩ <;>
    rcases h' with failed' | ⟨config', settled', failed'⟩ <;> simp_all

/-- The reports on all items are fixed. -/
theorem Completes.unique {reports others : List Report} (h : Completes around fs options reports)
    (h' : Completes around fs options others) : reports = others := by
  simp only [completes_iff, LintOptions.settles_iff] at h h'
  obtain ⟨config, settled, all⟩ := h
  obtain ⟨config', settled', all'⟩ := h'
  obtain rfl := Except.ok.inj (settled.symm.trans settled')
  exact Except.ok.inj (all.symm.trans all')

/-- Either some failure comes first, or there are reports on all items. -/
theorem exists_firstFailure_or_completes (around : Surroundings) (fs : FileSystem)
    (options : LintOptions) :
    (∃ failure, FirstFailure around fs options failure) ∨
      ∃ reports, Completes around fs options reports := by
  cases resolved : Config.resolve around fs options.settings options.settingsFile
      (Path.ofText ".") with
  | error failure => exact .inl ⟨failure, .config (LintOptions.settles_iff.2 resolved)⟩
  | ok config =>
      have settled : options.Settles around fs (.ok config) := LintOptions.settles_iff.2 resolved
      cases h : (options.items fs).mapM (Item.audit around fs config) with
      | error failure => exact .inl ⟨failure, firstFailure_iff.2 (.inr ⟨config, settled, h⟩)⟩
      | ok reports => exact .inr ⟨reports, completes_iff.2 ⟨config, settled, h⟩⟩

end FirstFailure

/-! ### What is gathered -/

theorem Gathered.andThen_snd (first : Gathered) (next : Unit → Gathered) :
    (first.andThen next).2 =
      first.2 >>= fun reports => (next ()).2 >>= fun later => pure (reports ++ later) := by
  obtain ⟨notes, result⟩ := first
  cases result with
  | error failure => rfl
  | ok reports =>
      cases h : (next ()).2 <;> simp [andThen, h, Except.map, bind, Except.bind, pure, Except.pure]

theorem Gathered.mem_notes_andThen {first : Gathered} {next : Unit → Gathered} {note : String}
    (h : note ∈ (first.andThen next).1) : note ∈ first.1 ∨ note ∈ (next ()).1 := by
  obtain ⟨notes, result⟩ := first
  cases result with
  | error failure => exact .inl h
  | ok reports => exact List.mem_append.1 h

variable (around : Surroundings) (fs : FileSystem) (config : Config) (verbose : Bool)

theorem auditItems_snd (items : List Item) :
    (auditItems around fs config verbose items).2 = items.mapM (Item.audit around fs config) := by
  induction items with
  | nil => rfl
  | cons item rest ih =>
      rw [auditItems, Gathered.andThen_snd, ih, List.mapM_cons, auditItem]
      cases item.audit around fs config <;> rfl

theorem auditSource_snd (source : String) :
    (auditSource around fs config verbose source).2 =
      (itemsOf fs source).mapM (Item.audit around fs config) := by
  rw [auditSource, itemsOf]
  by_cases haddress : IsAddress source
  · rw [if_pos haddress, if_pos (isUrl_iff.2 haddress)]
    exact auditItems_snd around fs config verbose _
  · rw [if_neg haddress, if_neg (mt isUrl_iff.1 haddress), Gathered.andThen_snd, auditItems_snd]
    cases List.mapM (Item.audit around fs config) _ <;> rfl

/-- **What is gathered are the reports on the items, or the first failure.** -/
theorem auditSources_snd (sources : List String) :
    (auditSources around fs config verbose sources).2 =
      (sources.flatMap (itemsOf fs)).mapM (Item.audit around fs config) := by
  induction sources with
  | nil => rfl
  | cons source rest ih =>
      rw [auditSources, Gathered.andThen_snd, auditSource_snd, ih, List.flatMap_cons,
        List.mapM_append]

/-! ### What is noted -/

theorem isErrorReport_of_head? {line : String} {c : Char} (h : line.toList.head? = some c)
    (hc : c ≠ 'E') : isErrorReport line = false := by
  obtain ⟨rest, hline⟩ := List.head?_eq_some_iff.1 h
  rw [isErrorReport, hline]
  simp [List.isPrefixOf, Ne.symm hc]

theorem isErrorReport_errorLine (failure : Failure) :
    isErrorReport (errorLine failure) = true := by
  rw [isErrorReport, errorLine, String.toList_append, List.isPrefixOf_iff_prefix]
  exact List.prefix_append _ _

theorem head?_toList_append {s : String} {c : Char} (h : s.toList.head? = some c) (t : String) :
    (s ++ t).toList.head? = some c := by
  rw [String.toList_append, List.head?_append, h, Option.some_or]

theorem isErrorReport_warningLine (source : String) :
    isErrorReport (warningLine source) = false :=
  isErrorReport_of_head? (head?_toList_append (c := 'W') (by decide) source) (by decide)

theorem isErrorReport_debugLine (message : String) (fields : List (String × Json.Value)) :
    isErrorReport (debugLine message fields) = false := by
  have first := head?_toList_append (c := 'D') (by decide : "DEBUG ".toList.head? = _) message
  refine isErrorReport_of_head? (c := 'D') ?_ (by decide)
  rw [debugLine, String.toList_intercalate, List.map_cons]
  cases fields with
  | nil => rwa [List.map_nil, List.map_nil, List.intercalate_singleton]
  | cons field rest =>
      rw [List.map_cons, List.map_cons, List.intercalate_cons_cons, List.append_assoc,
        List.head?_append, first, Option.some_or]

theorem isErrorReport_of_mem_settingsNotes {options : LintOptions} {note : String}
    (h : note ∈ settingsNotes fs options) : isErrorReport note = false := by
  rw [settingsNotes] at h
  split at h
  · rw [List.mem_singleton.1 h]
    exact isErrorReport_debugLine _ _
  · simp at h

theorem isErrorReport_of_mem_auditItems {items : List Item} {note : String}
    (h : note ∈ (auditItems around fs config verbose items).1) : isErrorReport note = false := by
  induction items with
  | nil => simp [auditItems] at h
  | cons item rest ih =>
      rcases Gathered.mem_notes_andThen h with h | h
      · rw [auditItem] at h
        split at h
        · split at h
          · obtain ⟨event, -, rfl⟩ := List.mem_map.1 h
            exact isErrorReport_debugLine _ _
          · simp at h
        · simp at h
      · exact ih h

/-- **What is noted on the way reports no failure.** -/
theorem isErrorReport_of_mem_auditSources {sources : List String} {note : String}
    (h : note ∈ (auditSources around fs config verbose sources).1) :
    isErrorReport note = false := by
  induction sources with
  | nil => simp [auditSources] at h
  | cons source rest ih =>
      rcases Gathered.mem_notes_andThen h with h | h
      · rw [auditSource] at h
        split at h
        · exact isErrorReport_of_mem_auditItems around fs config verbose h
        · rcases Gathered.mem_notes_andThen h with h | h
          · split at h
            · rw [List.mem_singleton.1 h]
              exact isErrorReport_warningLine source
            · simp at h
          · exact isErrorReport_of_mem_auditItems around fs config verbose h
      · exact ih h

/-! ### Runs -/

variable {around fs} {options : LintOptions}

/-- A run with a configuration ends with the reports on all items, or with the failure of the first
one on which there is no report. -/
theorem runLint_eq_of_config {config : Config} (h : options.Settles around fs (.ok config)) :
    ∃ notes, (∀ note ∈ notes, isErrorReport note = false) ∧
      runLint around fs options =
        match (options.items fs).mapM (Item.audit around fs config) with
        | .error failure => failed notes failure
        | .ok reports =>
          { exitCode := (Report.worstStatus reports).exitCode
            output := display options.format reports
            notes := notes } := by
  refine ⟨settingsNotes fs options ++
    (auditSources around fs config options.verbose options.sources).1, fun note hnote => ?_, ?_⟩
  · rcases List.mem_append.1 hnote with hnote | hnote
    · exact isErrorReport_of_mem_settingsNotes fs hnote
    · exact isErrorReport_of_mem_auditSources around fs config options.verbose hnote
  · rw [runLint, LintOptions.settles_iff.1 h, LintOptions.items,
      ← auditSources_snd around fs config options.verbose]
    dsimp only
    obtain ⟨notes, result⟩ := auditSources around fs config options.verbose options.sources
    cases result <;> rfl

theorem filter_isErrorReport_failed {notes : List String}
    (h : ∀ note ∈ notes, isErrorReport note = false) (failure : Failure) :
    (failed notes failure).notes.filter isErrorReport = [errorLine failure] := by
  rw [failed, List.filter_append, List.filter_eq_nil_iff.2 fun note hnote => by simp [h note hnote]]
  simp [isErrorReport_errorLine]

/-- A run that ends with a failure tells this failure and nothing else. -/
theorem tellsOnly_failed {notes : List String}
    (h : ∀ note ∈ notes, isErrorReport note = false) (failure : Failure) :
    TellsOnly failure (failed notes failure) where
  output := rfl
  report := filter_isErrorReport_failed h failure
  noOther := fun other same hother => by
    have reported : errorLine other ∈ (failed notes failure).notes.filter isErrorReport :=
      List.mem_filter.2 ⟨hother, isErrorReport_errorLine other⟩
    rw [filter_isErrorReport_failed h, List.mem_singleton] at reported
    exact Failure.eq_of_message_eq ((String.append_right_inj _).1 reported) same
  exitCode := failure.exitCode_eq

/-- A run of `lint` tells the failure that comes first and nothing else. -/
theorem FirstFailure.tellsOnly {failure : Failure} (h : FirstFailure around fs options failure) :
    TellsOnly failure (runLint around fs options) := by
  rcases firstFailure_iff.1 h with failed | ⟨config, settled, first⟩
  · rw [runLint, LintOptions.settles_iff.1 failed]
    exact tellsOnly_failed (fun _ => isErrorReport_of_mem_settingsNotes fs) failure
  · obtain ⟨notes, hnotes, hrun⟩ := runLint_eq_of_config settled
    rw [hrun, first]
    exact tellsOnly_failed hnotes failure

/-- A run of `lint` shows the reports on all items. -/
theorem Completes.showsAll {reports : List Report} (h : Completes around fs options reports) :
    ShowsAll options.format reports (runLint around fs options) := by
  obtain ⟨config, settled, all⟩ := completes_iff.1 h
  obtain ⟨notes, hnotes, hrun⟩ := runLint_eq_of_config settled
  rw [hrun, all]
  exact {
    output := by cases options.format <;> simp [display]
    report := List.filter_eq_nil_iff.2 fun note hnote => by simp [hnotes note hnote]
    exitCode := Report.exitCode_worstStatus reports }

end Cli

end SchemaAudit
