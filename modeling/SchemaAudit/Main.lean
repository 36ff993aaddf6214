/-
**The program.**

The program takes a picture of the files that its command looks at, and shows the outcome of the
command on that picture.

* `Cli.surroundings` — what the program finds around it;
* `Cli.picture` — the picture of the disk.
-/

import SchemaAudit.Cli.Run

set_option relaxedAutoImplicit false
set_option autoImplicit false

namespace SchemaAudit.Cli

/-- The surroundings of the program, which has no access to the network. What cannot be read on the
disk is not in the picture of it, so that nothing that is there is refused. -/
def surroundings : Surroundings where
  fetch? := none
  refusal? := fun _ => none
  directoryRefusal := "is a directory"
  encodingRefusal := "is not UTF-8"
  jsonRefusal := fun _ => "not JSON"
  settingsRefusal := fun _ => "not a settings file"
  help := fun _ => "JSON Schema linter for static type compatibility\n"
  misuse := fun _ => []

/-- The names in a directory of the disk, or `none` if there is no directory. -/
def namesOnDisk (path : String) : IO (Option (List String)) :=
  try
    let entries ← (← IO.FS.realPath path).readDir
    return some (entries.toList.map fun entry => entry.fileName)
  catch _ => return none

/-- The content of a file of the disk, or `none` if there is no file. -/
def contentOnDisk (path : String) : IO (Option ByteArray) :=
  try
    return some (← IO.FS.readBinFile path)
  catch _ => return none

/-- What a path of the disk names, with all that is below it. -/
partial def treeOnDisk (path : Path) : IO (Option Entry) := do
  match ← namesOnDisk path.text with
  | some names =>
    let entries ← names.filterMapM fun name => do
      return (← treeOnDisk (path.join name)).map fun entry => (name, entry)
    return some (.directory entries)
  | none => return (← contentOnDisk path.text).map .file

/-- Adds the directories of the disk that lead to a path. -/
def addDirectories (fs : FileSystem) (path : Path) : IO FileSystem :=
  (List.range (path.pieces.length + 1)).foldlM (fun fs count => do
    let above : Path := { path with pieces := path.pieces.take count }
    if (← namesOnDisk above.text).isSome then return fs.createDirectory above else return fs) fs

/-- Adds what a path of the disk names, without what a directory there holds. -/
def addEntry (fs : FileSystem) (path : Path) : IO FileSystem := do
  let fs ← addDirectories fs path
  match ← contentOnDisk path.text with
  | some content => return fs.write path content
  | none => return fs

/-- Adds what a path of the disk names, with all that is below it. -/
def addTree (fs : FileSystem) (path : Path) : IO FileSystem := do
  let fs ← addDirectories fs path
  match ← treeOnDisk path, fs.locate? path with
  | some (.file content), _ => return fs.write path content
  | some entry, some location => return fs.putAt location entry
  | _, _ => return fs

/-- The picture of the disk that a command looks at. -/
def picture (scope : Scope) : IO FileSystem := do
  let here := Path.ofText (← IO.currentDir).toString
  let location := here.pieces.filter (· != "")
  let empty : FileSystem :=
    { root := Entry.put (.directory []) location (.directory []), workingDirectory := location }
  let withEntries ← scope.entries.foldlM addEntry empty
  scope.trees.foldlM addTree withEntries

end SchemaAudit.Cli

/-- Runs the program. -/
def main (arguments : List String) : IO UInt32 := do
  let scope := ((SchemaAudit.Cli.Command.ofArguments? arguments).map
    SchemaAudit.Cli.Command.scope).getD {}
  let outcome := SchemaAudit.Cli.run SchemaAudit.Cli.surroundings
    (← SchemaAudit.Cli.picture scope) arguments
  let errors ← IO.getStderr
  for line in outcome.notes do
    errors.putStrLn line
  IO.print outcome.output
  return UInt32.ofNat outcome.exitCode
