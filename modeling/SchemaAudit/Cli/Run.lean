/-
**Running a command.**

A run that lints gathers the reports of all its sources before it shows any of them, so that a
failure leaves no partial output behind.

* `Cli.Outcome` — what a run leaves: an exit code and two texts;
* `Cli.auditSource`, `Cli.auditSources` — the reports on the sources, or the first failure;
* `Cli.runLint`, `Cli.run` — the outcome of a command, and of a list of arguments;
* `Cli.Command.scope` — the part of a file system that a command looks at.
-/

import SchemaAudit.Cli.Command
import SchemaAudit.Audit.Log
import SchemaAudit.Settings.Discovery
import SchemaAudit.Source

set_option relaxedAutoImplicit false
set_option autoImplicit false

namespace SchemaAudit.Cli

/-! ### Outcomes -/

/-- What a run leaves. -/
structure Outcome where
  exitCode : Nat
  /-- The text on the standard output. -/
  output : String := ""
  /-- The lines on the standard error output. -/
  notes : List String := []
deriving DecidableEq, Inhabited

/-- The version of the program. -/
def versionNumber : String := "0.3.0"

/-- The line that reports a failure. -/
def errorLine (failure : Failure) : String := "Error: " ++ failure.message

/-- The line that tells that a source stands for no files. -/
def warningLine (source : String) : String := "Warning: no .json files found in " ++ source

/-! ### Auditing sources -/

/-- A line of the log. -/
def debugLine (message : String) (fields : List (String × Json.Value)) : String :=
  String.intercalate " " (("DEBUG " ++ message) :: fields.map fun field =>
    field.1 ++ "=" ++ field.2.pretty)

/-- The lines that log the audit of a document, trace events aside. -/
def logLines (config : Config) (d : Document) : List String :=
  ((d.log config).filter fun event => event.level == .debug).map fun event =>
    debugLine event.message event.fields

/-- Notes, and either reports or the failure that ended the run. -/
abbrev Gathered := List String × Except Failure (List Report)

/-- Audits an item. -/
def auditItem (around : Surroundings) (fs : FileSystem) (config : Config) (verbose : Bool)
    (item : Item) : Gathered :=
  let notes :=
    if verbose then
      match item.load around fs >>= decode with
      | .ok d => logLines config d
      | .error _ => []
    else []
  (notes, (item.audit around fs config).map fun report => [report])

/-- Goes on after what has been gathered, unless the run has failed. -/
def Gathered.andThen (first : Gathered) (next : Unit → Gathered) : Gathered :=
  match first with
  | (notes, .error failure) => (notes, .error failure)
  | (notes, .ok reports) =>
    let rest := next ()
    (notes ++ rest.1, rest.2.map (reports ++ ·))

/-- Audits several items, one after the other. -/
def auditItems (around : Surroundings) (fs : FileSystem) (config : Config) (verbose : Bool) :
    List Item → Gathered
  | [] => ([], .ok [])
  | item :: rest =>
    (auditItem around fs config verbose item).andThen fun _ =>
      auditItems around fs config verbose rest

/-- Audits what a source stands for: an address stands for itself, a path for the files that it
collects. -/
def auditSource (around : Surroundings) (fs : FileSystem) (config : Config) (verbose : Bool)
    (source : String) : Gathered :=
  if isUrl source then auditItems around fs config verbose [.address source]
  else
    let files := fs.collect (Path.ofText source)
    Gathered.andThen (if files.isEmpty then [warningLine source] else [], .ok []) fun _ =>
      auditItems around fs config verbose (files.map .file)

/-- Audits several sources, one after the other. -/
def auditSources (around : Surroundings) (fs : FileSystem) (config : Config) (verbose : Bool) :
    List String → Gathered
  | [] => ([], .ok [])
  | source :: rest =>
    (auditSource around fs config verbose source).andThen fun _ =>
      auditSources around fs config verbose rest

/-! ### Running -/

/-- The outcome of a failure. -/
def failed (notes : List String) (failure : Failure) : Outcome where
  exitCode := failure.exitCode
  notes := notes ++ [errorLine failure]

/-- The text that shows reports. Only the JSON format does not end its last line itself. -/
def display (format : OutputFormat) (reports : List Report) : String :=
  match format with
  | .json => format.render reports ++ "\n"
  | _ => format.render reports

/-- What is noted about the settings file: which one was found, unless one is given. -/
def settingsNotes (fs : FileSystem) (options : LintOptions) : List String :=
  match options.verbose, options.settingsFile, Settings.discover? fs (Path.ofText ".") with
  | true, none, some p => [debugLine "using discovered config file" [("path", .string p.text)]]
  | _, _, _ => []

/-- Lints. -/
def runLint (around : Surroundings) (fs : FileSystem) (options : LintOptions) : Outcome :=
  let found := settingsNotes fs options
  match Config.resolve around fs options.settings options.settingsFile (Path.ofText ".") with
  | .error failure => failed found failure
  | .ok config =>
    match auditSources around fs config options.verbose options.sources with
    | (notes, .error failure) => failed (found ++ notes) failure
    | (notes, .ok reports) =>
      { exitCode := (Report.worstStatus reports).exitCode
        output := display options.format reports
        notes := found ++ notes }

/-- What a command has to know of a file system. -/
structure Scope where
  /-- Paths of which it matters what they name, but not what a directory there holds. -/
  entries : List Path := []
  /-- Paths of which everything matters that is below them. -/
  trees : List Path := []

/-- What a command has to know of a file system: the places where a settings file may be, and the
sources. -/
def Command.scope : Command → Scope
  | .lint options =>
    let directories := (Path.ofText ".").ancestors
    { entries :=
        (directories.map fun d => d.join Settings.fileName) ++
          (directories.map fun d => d.join Settings.repositoryMark) ++
          options.settingsFile.toList
      trees := options.sources.map Path.ofText }
  | _ => {}

/-- Runs the command of a list of arguments. -/
def Command.run (around : Surroundings) (fs : FileSystem) (arguments : List String) :
    Command → Outcome
  | .lint options => runLint around fs options
  | .version => { exitCode := 0, output := "schemalint version " ++ versionNumber ++ "\n" }
  | .versionOption => { exitCode := 0, output := "schemalint " ++ versionNumber ++ "\n" }
  | .help => { exitCode := 0, output := around.help arguments }

/-- Runs the program with a list of arguments. -/
def run (around : Surroundings) (fs : FileSystem) (arguments : List String) : Outcome :=
  match Command.ofArguments? arguments with
  | some command => command.run around fs arguments
  | none => { exitCode := 2, notes := around.misuse arguments }

end SchemaAudit.Cli
