/-
**Which settings file a run uses.**

A search for a settings file goes up along the text of a path. From an absolute path without dots
these are the directories above it, and the search finds the file of the first directory that has
one or is the root of a repository. A run of `lint` starts from the path `.`, above which the text
has only the empty path: no directory above the working directory is ever looked at.

Main definitions:

* `upward`, `FileSystem.governing?` — the directories from a location up to the root, and the
  settings file of the first of them that has one, unless one before it is the root of a repository;
* `FileSystem.Leads` — a path below which names are found as below a location;
* `Cli.settingsFile?`, `Cli.lintUnder` — the settings file that a run uses, and what the run does
  under the configuration that it gets;
* `Cli.offline` — surroundings without access to the network.

Main results:

* `Settings.discover?_absolute` — **from an absolute path the search finds the governing file**;
* `Settings.discover?_here` — from `.` it finds that of the working directory or none;
* `Cli.run_uses_own_settings` — which file a run uses, and when it is the governing one.
-/

import SchemaAudit.Cli.Run
import Mathlib.Data.List.Forall2
import Mathlib.Data.List.Infix

set_option relaxedAutoImplicit false
set_option autoImplicit false

namespace SchemaAudit

/-! ### Locations -/

theorem Entry.descend?_append (e : Entry) (location below : List String) :
    e.descend? (location ++ below) = (e.descend? location).bind fun here => here.descend? below :=
  List.foldlM_append

theorem Entry.descend?_concat (e : Entry) (location : List String) (name : String) :
    e.descend? (location ++ [name]) =
      (e.descend? location).bind fun here => List.lookup name here.entries := by
  simp [Entry.descend?]

namespace FileSystem

/-- Whether something is at a location. -/
def hasAt (fs : FileSystem) (location : List String) : Bool :=
  (fs.root.descend? location).isSome

/-- Whether a file is at a location. -/
def isFileAt (fs : FileSystem) (location : List String) : Bool :=
  (fs.root.descend? location).any fun entry => !entry.isDirectory

/-- The settings file in a directory. -/
def settingsIn? (fs : FileSystem) (directory : List String) : Option (List String) :=
  if fs.isFileAt (directory ++ [Settings.fileName]) then some (directory ++ [Settings.fileName])
  else none

/-- The first of some directories that has a settings file or is the root of a repository gives its
settings file, if it has one. -/
def governing? (fs : FileSystem) (directories : List (List String)) : Option (List String) :=
  (directories.find? fun directory =>
    fs.isFileAt (directory ++ [Settings.fileName]) ||
      fs.hasAt (directory ++ [Settings.repositoryMark])).bind fs.settingsIn?

theorem hasAt_of_isFileAt {fs : FileSystem} {location : List String}
    (h : fs.isFileAt location) : fs.hasAt location := by
  obtain ⟨entry, hentry, -⟩ := (Option.any_eq_true _ _).mp h
  exact Option.isSome_iff_exists.mpr ⟨entry, hentry⟩

theorem settingsIn?_eq_some_iff {fs : FileSystem} {directory file : List String} :
    fs.settingsIn? directory = some file ↔
      fs.isFileAt file ∧ file = directory ++ [Settings.fileName] := by
  rw [settingsIn?]
  split
  · rename_i hfile
    rw [Option.some.injEq]
    exact ⟨fun h => ⟨h ▸ hfile, h.symm⟩, fun h => h.2.symm⟩
  · rename_i hfile
    exact ⟨fun h => absurd h (by simp), fun h => absurd (h.2 ▸ h.1) hfile⟩

theorem governing?_cons_of_isFileAt {fs : FileSystem} {directory : List String}
    (above : List (List String)) (h : fs.isFileAt (directory ++ [Settings.fileName])) :
    fs.governing? (directory :: above) = fs.settingsIn? directory := by
  simp [governing?, h]

theorem isFileAt_of_governing? {fs : FileSystem} {directories : List (List String)}
    {file : List String} (h : fs.governing? directories = some file) : fs.isFileAt file := by
  obtain ⟨directory, -, hfile⟩ := Option.bind_eq_some_iff.mp h
  exact (settingsIn?_eq_some_iff.mp hfile).1

end FileSystem

/-- A location and all above it, up to the root. -/
def upward (location : List String) : List (List String) := location.inits.reverse

theorem upward_concat (location : List String) (name : String) :
    upward (location ++ [name]) = (location ++ [name]) :: upward location := by
  simp [upward, List.inits_append]

theorem exists_upward_eq_cons (location : List String) :
    ∃ above, upward location = location :: above := by
  cases location using List.reverseRecOn with
  | nil => exact ⟨[], rfl⟩
  | append_singleton location name => exact ⟨_, upward_concat location name⟩

/-- The settings file in a directory is the one that governs there, unless a directory above gives
that. -/
theorem FileSystem.settingsIn?_eq_governing?_iff {fs : FileSystem} {directory : List String} :
    fs.settingsIn? directory = fs.governing? (upward directory) ↔
      ∀ file, fs.governing? (upward directory) = some file →
        file = directory ++ [Settings.fileName] := by
  constructor
  · intro heq file hgoverns
    exact (settingsIn?_eq_some_iff.mp (heq.trans hgoverns)).2
  · intro honly
    obtain ⟨above, hup⟩ := exists_upward_eq_cons directory
    cases hfile : fs.isFileAt (directory ++ [Settings.fileName]) with
    | true => rw [hup, fs.governing?_cons_of_isFileAt above hfile]
    | false =>
        cases hgoverns : fs.governing? (upward directory) with
        | none => simp [settingsIn?, hfile]
        | some file =>
            have hat := isFileAt_of_governing? hgoverns
            rw [honly file hgoverns, hfile] at hat
            exact absurd hat (by simp)

/-- A piece of a path that names an entry of a directory. -/
def Path.IsName (piece : String) : Prop := piece ≠ "" ∧ piece ≠ "." ∧ piece ≠ ".."

instance (piece : String) : Decidable (Path.IsName piece) :=
  inferInstanceAs (Decidable (_ ∧ _ ∧ _))

namespace FileSystem

variable {fs : FileSystem}

theorem step?_dot (location : List String) :
    fs.step? location "." = if fs.isDirectoryAt location then some location else none := by
  unfold step? isDirectoryAt
  rcases fs.root.descend? location with - | (_ | _) <;> rfl

theorem step?_blank (location : List String) :
    fs.step? location "" = if fs.isDirectoryAt location then some location else none := by
  unfold step? isDirectoryAt
  rcases fs.root.descend? location with - | (_ | _) <;> rfl

theorem step?_name (location : List String) {name : String} (h : Path.IsName name) :
    fs.step? location name =
      if fs.hasAt (location ++ [name]) then some (location ++ [name]) else none := by
  obtain ⟨hblank, hdot, hdots⟩ := h
  unfold step? hasAt
  rw [Entry.descend?_concat]
  rcases fs.root.descend? location with - | (_ | entries)
  · rfl
  · rfl
  · simp only [hblank, hdot, hdots, or_self, if_false]
    rfl

/-- Below what is not a directory there is nothing. -/
theorem hasAt_concat_of_not_isDirectoryAt {location : List String} (name : String)
    (h : fs.isDirectoryAt location = false) : fs.hasAt (location ++ [name]) = false := by
  simp only [isDirectoryAt] at h
  simp only [hasAt, Entry.descend?_concat]
  rcases heq : fs.root.descend? location with - | (_ | entries)
  · simp
  · simp [Entry.entries]
  · simp [heq, Entry.isDirectory] at h

theorem not_hasAt_append {location : List String} (below : List String)
    (h : fs.hasAt location = false) : fs.hasAt (location ++ below) = false := by
  simp only [hasAt, Option.isSome_eq_false_iff, Option.isNone_iff_eq_none] at h ⊢
  rw [Entry.descend?_append, h, Option.bind_none]

/-- Names lead from a location to the one that has them at its end. -/
theorem foldlM_step?_names {location : List String} (hat : fs.hasAt location) {names : List String}
    (h : ∀ name ∈ names, Path.IsName name) :
    names.foldlM fs.step? location =
      if fs.hasAt (location ++ names) then some (location ++ names) else none := by
  induction names generalizing location with
  | nil => simp [hat]
  | cons name names ih =>
      obtain ⟨hname, hnames⟩ := List.forall_mem_cons.mp h
      rw [List.foldlM_cons, step?_name location hname]
      rw [List.append_cons location name names]
      cases hnext : fs.hasAt (location ++ [name]) with
      | true => exact ih hnext hnames
      | false =>
          rw [not_hasAt_append names hnext]
          rfl

/-! ### Paths that lead to a location -/

/-- Whether names below a path are found as names below a location. -/
def Leads (fs : FileSystem) (p : Path) (location : List String) : Prop :=
  ∀ name, Path.IsName name →
    fs.locate? (p.join name) =
      if fs.hasAt (location ++ [name]) then some (location ++ [name]) else none

namespace Leads

variable {p : Path} {location : List String} {name : String}

theorem find? (h : fs.Leads p location) (hname : Path.IsName name) :
    fs.find? (p.join name) = fs.root.descend? (location ++ [name]) := by
  rw [FileSystem.find?, h name hname, hasAt]
  cases heq : fs.root.descend? (location ++ [name]) with
  | none => rfl
  | some entry => exact heq

theorem has (h : fs.Leads p location) (hname : Path.IsName name) :
    fs.has (p.join name) = fs.hasAt (location ++ [name]) := by
  rw [FileSystem.has, h.find? hname, hasAt]

theorem isFile (h : fs.Leads p location) (hname : Path.IsName name) :
    fs.isFile (p.join name) = fs.isFileAt (location ++ [name]) := by
  rw [FileSystem.isFile, h.find? hname, isFileAt]
  rcases fs.root.descend? (location ++ [name]) with - | (_ | _) <;> rfl

end Leads

theorem leads_dot (fs : FileSystem) : fs.Leads ⟨false, ["."]⟩ fs.workingDirectory := by
  intro name hname
  have hsteps : fs.locate? (Path.join ⟨false, ["."]⟩ name) =
      (fs.step? fs.workingDirectory ".").bind fun here => fs.step? here name := by
    simp [locate?, Path.join, Path.isEmpty, origin]
  rw [hsteps, step?_dot]
  cases hdir : fs.isDirectoryAt fs.workingDirectory with
  | true => exact step?_name _ hname
  | false => simp [hasAt_concat_of_not_isDirectoryAt name hdir]

theorem leads_empty (fs : FileSystem) : fs.Leads ⟨false, []⟩ fs.workingDirectory := by
  intro name hname
  have hstep : fs.locate? (Path.join ⟨false, []⟩ name) = fs.step? fs.workingDirectory name := by
    simp [locate?, Path.join, Path.isEmpty, origin, hname.1]
  rw [hstep, step?_name _ hname]

theorem leads_absolute (fs : FileSystem) {names : List String}
    (h : ∀ name ∈ names, Path.IsName name) : fs.Leads ⟨true, names⟩ names := by
  intro name hname
  have hjoin : Path.join ⟨true, names⟩ name = ⟨true, names ++ [name]⟩ := by
    rw [Path.join, if_neg]
    intro hlast
    exact (h "" (List.mem_of_getLast? hlast)).1 rfl
  have hnames : ∀ piece ∈ names ++ [name], Path.IsName piece := by
    simpa [or_imp, forall_and] using ⟨h, hname⟩
  rw [hjoin, locate?, if_neg (by simp [Path.isEmpty])]
  exact foldlM_step?_names rfl hnames

end FileSystem

/-! ### The directories that are searched -/

namespace Path

theorem dropIdle_names (absolute : Bool) {pieces : List String}
    (h : ∀ piece ∈ pieces, IsName piece) : dropIdle absolute pieces = pieces := by
  cases pieces with
  | nil => rfl
  | cons piece above =>
      obtain ⟨hblank, hdot, -⟩ := h piece List.mem_cons_self
      rw [dropIdle, if_neg (by simp [hblank, hdot])]

theorem ancestors_eq (p : Path) : p.ancestors = p :: p.parent?.elim [] ancestors := by
  rw [ancestors]
  split <;> simp_all

/-- Above `.` the text has only the empty path. -/
theorem ancestors_dot : (ofText ".").ancestors = [⟨false, ["."]⟩, ⟨false, []⟩] := by
  have hdot : (ofText ".").parent? = some ⟨false, []⟩ := by decide
  have hempty : parent? ⟨false, []⟩ = none := by decide
  rw [ancestors_eq, hdot, Option.elim_some, ancestors_eq, hempty, Option.elim_none]
  rfl

/-- Above an absolute path are the directories that hold it, if it has no dots. -/
theorem ancestors_absolute {names : List String} (h : ∀ name ∈ names, IsName name) :
    ancestors ⟨true, names⟩ = (upward names).map (Path.mk true) := by
  induction names using List.reverseRecOn with
  | nil => exact ancestors_eq _
  | append_singleton names name ih =>
      obtain ⟨hnames, hname⟩ := List.forall_mem_append.mp h
      have hlast : dropIdle true (names ++ [name]).reverse = name :: names.reverse := by
        rw [dropIdle_names true (by simpa only [List.mem_reverse] using h), List.reverse_concat]
      have habove : dropIdle true names.reverse = names.reverse :=
        dropIdle_names true (by simpa using hnames)
      have hparent : parent? ⟨true, names ++ [name]⟩ = some ⟨true, names⟩ := by
        simp only [parent?, hlast, habove, List.reverse_reverse]
      rw [ancestors_eq, hparent, Option.elim_some, ih hnames, upward_concat, List.map_cons]

end Path

namespace Settings

variable {fs : FileSystem}

theorem fileName_isName : Path.IsName fileName := by decide

theorem repositoryMark_isName : Path.IsName repositoryMark := by decide

/-- A search along paths that lead to some directories finds the file that governs there. -/
theorem nearest?_locate {paths : List Path} {directories : List (List String)}
    (h : List.Forall₂ fs.Leads paths directories) :
    (nearest? fs paths).map fs.locate? = (fs.governing? directories).map some := by
  induction h with
  | nil => rfl
  | @cons p directory paths directories hleads _ ih =>
      have hlocate := hleads fileName fileName_isName
      simp only [nearest?, hleads.isFile fileName_isName, hleads.has repositoryMark_isName,
        FileSystem.governing?, List.find?_cons]
      cases hfile : fs.isFileAt (directory ++ [fileName]) with
      | true => simp [hlocate, hfile, FileSystem.hasAt_of_isFileAt hfile, FileSystem.settingsIn?]
      | false =>
          cases hmark : fs.hasAt (directory ++ [repositoryMark]) with
          | true => simp [hfile, FileSystem.settingsIn?]
          | false => simpa [FileSystem.governing?] using ih

/-- **From an absolute path without dots the search finds the file that governs there**, that is,
it goes up the real directories. -/
theorem discover?_absolute (fs : FileSystem) {names : List String}
    (h : ∀ name ∈ names, Path.IsName name) :
    (discover? fs ⟨true, names⟩).map fs.locate? = (fs.governing? (upward names)).map some := by
  have habove : ∀ directory ∈ upward names, ∀ name ∈ directory, Path.IsName name := by
    intro directory hdirectory name hname
    exact h name (((List.mem_inits _ _).mp (List.mem_reverse.mp hdirectory)).subset hname)
  rw [discover?, Path.ancestors_absolute h]
  refine nearest?_locate (List.forall₂_map_left_iff.mpr ?_)
  exact List.forall₂_same.mpr fun directory hdirectory =>
    FileSystem.leads_absolute fs (habove directory hdirectory)

/-- From `.` the search finds the settings file of the working directory or none. -/
theorem discover?_here (fs : FileSystem) :
    (discover? fs (Path.ofText ".")).map fs.locate? =
      (fs.settingsIn? fs.workingDirectory).map some := by
  rw [discover?, Path.ancestors_dot,
    nearest?_locate (.cons fs.leads_dot (.cons fs.leads_empty .nil))]
  refine congrArg (Option.map some) ?_
  cases hfile : fs.isFileAt (fs.workingDirectory ++ [fileName]) with
  | true => exact fs.governing?_cons_of_isFileAt _ hfile
  | false =>
      have hnone : fs.settingsIn? fs.workingDirectory = none := by
        simp [FileSystem.settingsIn?, hfile]
      -- The empty path leads to the working directory once more.
      cases hmark : fs.hasAt (fs.workingDirectory ++ [repositoryMark]) <;>
        simp [FileSystem.governing?, hfile, hmark, hnone]

end Settings

namespace Cli

/-- The settings file that a run of `lint` uses. -/
def settingsFile? (fs : FileSystem) (options : LintOptions) : Option Path :=
  options.settingsFile <|> Settings.discover? fs (Path.ofText ".")

/-- The configuration from the options and a settings file, if there is one. -/
def completed (around : Surroundings) (fs : FileSystem) (options : LintOptions)
    (file : Option Path) : Except Failure Config := do
  let fallback ← file.elim (.ok {}) (Settings.load around fs)
  (options.settings.orElse fallback).resolve

/-- What a run of `lint` does under a configuration. -/
def lintUnder (around : Surroundings) (fs : FileSystem) (options : LintOptions) :
    Except Failure Config → Outcome
  | .error failure => failed (settingsNotes fs options) failure
  | .ok config =>
    match auditSources around fs config options.verbose options.sources with
    | (notes, .error failure) => failed (settingsNotes fs options ++ notes) failure
    | (notes, .ok reports) =>
      { exitCode := (Report.worstStatus reports).exitCode
        output := display options.format reports
        notes := settingsNotes fs options ++ notes }

theorem runLint_eq (around : Surroundings) (fs : FileSystem) (options : LintOptions) :
    runLint around fs options =
      lintUnder around fs options (completed around fs options (settingsFile? fs options)) := by
  simp only [runLint, Config.resolve, Settings.ofFile, completed, settingsFile?]
  cases options.settingsFile <|> Settings.discover? fs (Path.ofText ".") <;> rfl

/-- **A run of `lint` without `--config` uses the settings file of the working directory or none.**
The path that it uses names that file, and this is the governing file exactly if that is not above
the working directory. -/
theorem run_uses_own_settings (around : Surroundings) (fs : FileSystem) (arguments : List String)
    (options : LintOptions) (hlint : Command.ofArguments? arguments = some (.lint options))
    (hconfig : options.settingsFile = none) :
    run around fs arguments =
        lintUnder around fs options (completed around fs options (settingsFile? fs options)) ∧
      (settingsFile? fs options).map fs.locate? =
        (fs.settingsIn? fs.workingDirectory).map some ∧
      ((settingsFile? fs options).map fs.locate? =
          (fs.governing? (upward fs.workingDirectory)).map some ↔
        ∀ file, fs.governing? (upward fs.workingDirectory) = some file →
          file = fs.workingDirectory ++ [Settings.fileName]) := by
  have hrun : run around fs arguments =
      lintUnder around fs options (completed around fs options (settingsFile? fs options)) := by
    rw [run, hlint]
    exact runLint_eq around fs options
  have hown : (settingsFile? fs options).map fs.locate? =
      (fs.settingsIn? fs.workingDirectory).map some := by
    rw [settingsFile?, hconfig]
    exact Settings.discover?_here fs
  refine ⟨hrun, hown, ?_⟩
  rw [hown, (Option.map_injective fun _ _ => Option.some.inj).eq_iff]
  exact FileSystem.settingsIn?_eq_governing?_iff

/-- Surroundings without access to the network, in which everything may be read. -/
def offline : Surroundings where
  fetch? := none
  refusal? := fun _ => none
  directoryRefusal := "Is a directory (os error 21)"
  encodingRefusal := "stream did not contain valid UTF-8"
  jsonRefusal := fun _ => "expected value at line 1 column 1"
  settingsRefusal := fun _ => "TOML parse error at line 1, column 1"
  help := fun _ => ""
  misuse := fun _ => []

/-- A project in a directory, and a program that works in the project. -/
def projectIn (outer project : List (String × Entry)) : FileSystem where
  root := .directory (("project", .directory project) :: outer)
  workingDirectory := ["project"]

/-- What `lint` with one source asks for. -/
def lintOnly (source : String) : LintOptions where
  sources := [source]
  format := .text
  settings := {}
  settingsFile := none
  verbose := false

theorem run_uses_own_settings_project :
    let fs := projectIn [(".git", .directory [])] [("schemalint.toml", .file .empty)]
    Command.ofArguments? ["lint", "s.json"] = some (.lint (lintOnly "s.json")) ∧
      (lintOnly "s.json").settingsFile = none ∧
      run offline fs ["lint", "s.json"] = lintUnder offline fs (lintOnly "s.json")
        (completed offline fs (lintOnly "s.json") (settingsFile? fs (lintOnly "s.json"))) ∧
      (settingsFile? fs (lintOnly "s.json")).map fs.locate? =
        some (some ["project", "schemalint.toml"]) ∧
      (settingsFile? fs (lintOnly "s.json")).map fs.locate? =
        (fs.governing? (upward fs.workingDirectory)).map some := by
  intro fs
  have hlint : Command.ofArguments? ["lint", "s.json"] = some (.lint (lintOnly "s.json")) := by
    decide +kernel
  have hfile : fs.settingsIn? fs.workingDirectory = some ["project", "schemalint.toml"] := by
    decide +kernel
  have hgoverns : fs.governing? (upward fs.workingDirectory) =
      some ["project", "schemalint.toml"] := by
    decide +kernel
  obtain ⟨hrun, hown, hiff⟩ := run_uses_own_settings offline fs _ _ hlint rfl
  refine ⟨hlint, rfl, hrun, hown.trans (congrArg (Option.map some) hfile), hiff.mpr ?_⟩
  intro file h
  exact (Option.some.inj (hgoverns.symm.trans h)).symm

/-- A settings file above the working directory governs, is not used, and would matter. -/
theorem exists_governing_not_used :
    ∃ (around : Surroundings) (fs : FileSystem) (arguments : List String)
      (options : LintOptions),
      Command.ofArguments? arguments = some (.lint options) ∧ options.settingsFile = none ∧
      fs.governing? (upward fs.workingDirectory) = some ["schemalint.toml"] ∧
      settingsFile? fs options = none ∧
      (run around fs arguments).exitCode = 1 ∧
      (lintUnder around fs options
        (completed around fs options (some (Path.ofText "../schemalint.toml")))).exitCode = 0 := by
  refine ⟨offline, projectIn [("schemalint.toml", .file "property_case = \"none\"".toUTF8)]
    [("s.json", .file "\x7b\"properties\":\x7b\"A_b\":\x7b\x7d\x7d\x7d".toUTF8)],
    ["lint", "s.json"], lintOnly "s.json", ?_, rfl, ?_, ?_, ?_, ?_⟩ <;> decide +kernel

end Cli

end SchemaAudit
