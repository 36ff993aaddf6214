/-
**Where settings come from.**

Settings that are not given otherwise come from a settings file. It is looked for in a directory
and in the directories above it, as far as the first one that has such a file or is the root of a
repository.

* `Settings.load` — the settings of a file;
* `Settings.nearest?`, `Settings.discover?` — the settings file that applies to a directory;
* `Config.resolve` — the configuration from given settings and a settings file.
-/

import SchemaAudit.Settings.Reader

set_option relaxedAutoImplicit false
set_option autoImplicit false

namespace SchemaAudit

namespace Settings

/-- The name of a settings file. -/
def fileName : String := "schemalint.toml"

/-- The entry by which a directory shows that it is the root of a repository. -/
def repositoryMark : String := ".git"

/-- The settings of a file. -/
def load (around : Surroundings) (fs : FileSystem) (p : Path) : Except Failure Settings := do
  let content ← readFile around fs p
  match String.fromUTF8? content with
  | none => .error (.unreadable p.text around.encodingRefusal)
  | some text => parse around p.text text

/-- The settings file in the first of some directories that has one, unless one before it is the
root of a repository. A root of a repository may have a settings file itself. -/
def nearest? (fs : FileSystem) : List Path → Option Path
  | [] => none
  | directory :: above =>
    if fs.isFile (directory.join fileName) then some (directory.join fileName)
    else if fs.has (directory.join repositoryMark) then none
    else nearest? fs above

/-- The settings file that applies to a directory. -/
def discover? (fs : FileSystem) (start : Path) : Option Path :=
  nearest? fs start.ancestors

/-- The settings of the given file or else of the one that applies to a directory, if any. -/
def ofFile (around : Surroundings) (fs : FileSystem) (given : Option Path) (start : Path) :
    Except Failure Settings :=
  match given <|> discover? fs start with
  | some p => load around fs p
  | none => .ok {}

end Settings

/-- The configuration from given settings, completed by a settings file: the given one or else the
one that applies to a directory. -/
def Config.resolve (around : Surroundings) (fs : FileSystem) (given : Settings)
    (file : Option Path) (start : Path) : Except Failure Config := do
  let fallback ← Settings.ofFile around fs file start
  (given.orElse fallback).resolve

end SchemaAudit
