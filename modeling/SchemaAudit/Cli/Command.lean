/-
**The command line.**

A command line is a list of arguments. Options have a long name, and some a short one; a value
stands in the same argument or is the next one. After `--` all arguments are sources.

* `LintOptions`, `Command` — what a command line asks for;
* `LintState.step` — the effect of one argument after `lint`;
* `Command.ofArguments?` — the command of a list of arguments, unless they are misused.
-/

import SchemaAudit.Config
import SchemaAudit.Output

set_option relaxedAutoImplicit false
set_option autoImplicit false

namespace SchemaAudit.Cli

/-! ### Commands -/

/-- What to lint, and how. -/
structure LintOptions where
  /-- Files, directories and addresses; there is at least one. -/
  sources : List String
  format : OutputFormat
  settings : Settings
  /-- The settings file to use. -/
  settingsFile : Option Path
  /-- Whether to show a log. -/
  verbose : Bool
deriving DecidableEq

/-- What a command line asks for. -/
inductive Command where
  | lint (options : LintOptions)
  /-- The subcommand that tells the version. -/
  | version
  /-- The option that tells the version. -/
  | versionOption
  | help
deriving DecidableEq

/-! ### Options with a value -/

/-- The options of `lint` that take a value. -/
inductive ValueOption where
  | output
  | profile
  | propertyCase
  | maxUnionVariants
  | maxUnionDepth
  | discriminatorField
  | config
deriving DecidableEq

/-- The option of a long name. -/
def ValueOption.ofLong? : String → Option ValueOption
  | "output" => some .output
  | "profile" => some .profile
  | "property-case" => some .propertyCase
  | "max-union-variants" => some .maxUnionVariants
  | "max-union-depth" => some .maxUnionDepth
  | "discriminator-field" => some .discriminatorField
  | "config" => some .config
  | _ => none

/-- The option of a short name. -/
def ValueOption.ofShort? : Char → Option ValueOption
  | 'o' => some .output
  | 'p' => some .profile
  | _ => none

/-- A number below `2^64`, with or without a plus sign. -/
def number? (text : String) : Option Nat :=
  let digits := match text.toList with
    | '+' :: rest => rest
    | cs => cs
  if digits.isEmpty || !digits.all Char.isDigit then none
  else
    let n := ofDigits digits
    if n < wordBound then some n else none

/-- What the arguments after `lint` have asked for so far. -/
structure Draft where
  /-- The sources, last first. -/
  sources : List String := []
  format : Option OutputFormat := none
  settings : Settings := {}
  settingsFile : Option Path := none
  verbose : Bool := false

namespace Draft

/-- Sets what is not set yet. -/
def once {α : Type} (present : Option α) (value : Option α) (set : α → Draft) : Option Draft :=
  if present.isSome then none else value.map set

/-- Sets the value of an option. All but the tag fields may be set only once. -/
def set? (d : Draft) (option : ValueOption) (value : String) : Option Draft :=
  let s := d.settings
  match option with
  | .output => once d.format (OutputFormat.ofName? value) fun f => { d with format := some f }
  | .profile =>
    once s.profile (some value) fun t => { d with settings := { s with profile := some t } }
  | .propertyCase =>
    once s.naming (some value) fun t => { d with settings := { s with naming := some t } }
  | .maxUnionVariants =>
    once s.maxUnionVariants (number? value) fun n =>
      { d with settings := { s with maxUnionVariants := some n } }
  | .maxUnionDepth =>
    once s.maxUnionDepth (number? value) fun n =>
      { d with settings := { s with maxUnionDepth := some n } }
  | .discriminatorField =>
    some { d with settings := { s with tagFields := some (s.tagFields.getD [] ++ [value]) } }
  | .config =>
    once d.settingsFile (if value = "" then none else some (Path.ofText value)) fun p =>
      { d with settingsFile := some p }

/-- The options, if there is a source. -/
def options? (d : Draft) : Option LintOptions :=
  if d.sources.isEmpty then none
  else some ⟨d.sources.reverse, d.format.getD .text, d.settings, d.settingsFile, d.verbose⟩

end Draft

/-! ### Arguments after `lint` -/

/-- Where the reading of the arguments after `lint` stands. -/
inductive LintState where
  /-- An option or a source may follow. -/
  | any (draft : Draft)
  /-- The value of an option must follow. -/
  | awaiting (draft : Draft) (option : ValueOption)
  /-- All that follows is a source. -/
  | onlySources (draft : Draft)
  /-- Help was asked for. -/
  | help

/-- Whether an argument is an option in its form; a single dash is not. -/
def isOptionLike (argument : String) : Bool :=
  match argument.toList with
  | '-' :: _ :: _ => true
  | _ => false

/-- Splits an argument at the first sign of equality. -/
def splitValue (cs : List Char) : String × Option String :=
  let name := cs.takeWhile (· ≠ '=')
  match cs.drop name.length with
  | _ :: value => (String.ofList name, some (String.ofList value))
  | [] => (String.ofList name, none)

namespace LintState

/-- The effect of an option in its long form. -/
def longOption (d : Draft) (cs : List Char) : Option LintState :=
  match splitValue cs with
  | ("verbose", none) => if d.verbose then none else some (.any { d with verbose := true })
  | ("help", none) => some .help
  | (name, value) => do
    let option ← ValueOption.ofLong? name
    match value with
    | some text => (d.set? option text).map .any
    | none => some (.awaiting d option)

/-- The effect of options in their short form, of which several may share an argument. -/
def shortOptions (d : Draft) : List Char → Option LintState
  | [] => some (.any d)
  | 'v' :: rest => if d.verbose then none else shortOptions { d with verbose := true } rest
  | 'h' :: _ => some .help
  | c :: rest => do
    let option ← ValueOption.ofShort? c
    match rest with
    | [] => some (.awaiting d option)
    | '=' :: value => (d.set? option (String.ofList value)).map .any
    | value => (d.set? option (String.ofList value)).map .any

/-- The effect of one argument. -/
def step : LintState → String → Option LintState
  | .any d, argument =>
    match argument.toList with
    | ['-', '-'] => some (.onlySources d)
    | '-' :: '-' :: cs => longOption d cs
    | '-' :: c :: cs => shortOptions d (c :: cs)
    | _ => some (.any { d with sources := argument :: d.sources })
  | .awaiting d option, argument =>
    if isOptionLike argument then none else (d.set? option argument).map .any
  | .onlySources d, argument => some (.onlySources { d with sources := argument :: d.sources })
  | .help, _ => some .help

/-- The command that has been read. -/
def command? : LintState → Option Command
  | .any d => d.options?.map .lint
  | .onlySources d => d.options?.map .lint
  | .awaiting _ _ => none
  | .help => some .help

end LintState

/-! ### Whole command lines -/

/-- The command of the arguments after `lint`. -/
def lintCommand? (verbose : Bool) (arguments : List String) : Option Command := do
  let state ← arguments.foldlM LintState.step (.any {})
  match ← state.command? with
  | .lint options => some (.lint { options with verbose := verbose || options.verbose })
  | command => some command

/-- What flags that share an argument ask for. -/
inductive Flags where
  /-- To go on, with or without a log. -/
  | goOn (verbose : Bool)
  /-- A command at once. -/
  | command (command : Command)

/-- The flags of an argument in its short form. `version` tells whether the version may be asked
for. -/
def shortFlags? (version : Bool) (verbose : Bool) : List Char → Option Flags
  | [] => some (.goOn verbose)
  | 'v' :: rest => if verbose then none else shortFlags? version true rest
  | 'V' :: _ => if version then some (.command .versionOption) else none
  | 'h' :: _ => some (.command .help)
  | _ => none

/-- The flags of an argument. -/
def flags? (version : Bool) (verbose : Bool) (argument : String) : Option Flags :=
  match argument.toList with
  | '-' :: '-' :: cs =>
    match String.ofList cs with
    | "verbose" => if verbose then none else some (.goOn true)
    | "version" => if version then some (.command .versionOption) else none
    | "help" => some (.command .help)
    | _ => none
  | '-' :: c :: cs => shortFlags? version verbose (c :: cs)
  | _ => none

/-- The command of the arguments after `version`: flags, and nothing else. -/
def versionCommand? (verbose : Bool) : List String → Option Command
  | [] => some .version
  | ["--"] => some .version
  | argument :: rest =>
    match flags? false verbose argument with
    | none => none
    | some (.goOn verbose) => versionCommand? verbose rest
    | some (.command command) => some command

/-- The command of the arguments after `help`: at most one subcommand on which to help. -/
def helpCommand? : List String → Option Command
  | [] | ["lint"] | ["version"] | ["help"] => some .help
  | _ => none

/-- The command of the arguments from here on. -/
def command? (verbose : Bool) : List String → Option Command
  | [] => none
  | "lint" :: rest => lintCommand? verbose rest
  | "version" :: rest => versionCommand? false rest
  | "help" :: rest => helpCommand? rest
  | argument :: rest =>
    match flags? true verbose argument with
    | none => none
    | some (.goOn verbose) => command? verbose rest
    | some (.command command) => some command

/-- The command of a list of arguments, unless they are misused. -/
def Command.ofArguments? (arguments : List String) : Option Command :=
  command? false arguments

end SchemaAudit.Cli
