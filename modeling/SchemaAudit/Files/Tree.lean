/-
**File systems.**

A file system is a finite tree of directories and files without links, together with the directory
in which a program works. There are no rights in it: every directory can be listed, so that none is
skipped where schema files are collected, and whether a file may be read is left to the
surroundings of the program.

* `Entry` — a file or a directory; `Entry.descend?`, `Entry.put`, `Entry.erase` — finding, setting
  and removing what is at a location;
* `FileSystem` — the tree and the working directory;
* `FileSystem.find?`, `FileSystem.isFile`, `FileSystem.isDirectory` — what a path names;
* `FileSystem.write`, `FileSystem.createDirectory`, `FileSystem.remove` — changes;
* `isSchemaName` — the names of schema files, which have the extension `json`;
* `Entry.schemaFiles` — the schema files below a directory; `atOrBefore` — the order of locations;
* `FileSystem.collect` — the files that a path stands for, in ascending order.
-/

import SchemaAudit.Files.Path
import SchemaAudit.Record

set_option relaxedAutoImplicit false
set_option autoImplicit false

namespace SchemaAudit

/-! ### Entries -/

/-- A file or a directory. -/
inductive Entry where
  | file (content : ByteArray)
  | directory (entries : List (String × Entry))
deriving Inhabited

namespace Entry

/-- The entries of a directory; a file has none. -/
def entries : Entry → Record Entry
  | .file _ => []
  | .directory entries => entries

/-- Whether the entry is a directory. -/
def isDirectory : Entry → Bool
  | .file _ => false
  | .directory _ => true

/-- The entry at a location below this one. -/
def descend? (e : Entry) (location : List String) : Option Entry :=
  location.foldlM (fun here name => List.lookup name here.entries) e

/-- Sets what is at a location, and creates the directories that lead there. -/
def put (value : Entry) : List String → Entry → Entry
  | [], _ => value
  | name :: rest, e =>
    let below := (List.lookup name e.entries).getD (.directory [])
    .directory (Record.put name (put value rest below) e.entries)

/-- Removes what is at a location. -/
def erase : List String → Entry → Entry
  | [], e => e
  | [name], e => .directory (e.entries.filter fun entry => entry.1 != name)
  | name :: rest, e =>
    match List.lookup name e.entries with
    | some below => .directory (Record.put name (erase rest below) e.entries)
    | none => e

end Entry

/-! ### File systems -/

/-- A tree of files and the working directory in it. -/
structure FileSystem where
  /-- The directory that holds everything. -/
  root : Entry
  /-- The location of the working directory. -/
  workingDirectory : List String
deriving Inhabited

namespace FileSystem

/-- One piece of a path, from a location. Every piece, blank ones included, is looked up in a
directory. -/
def step? (fs : FileSystem) (location : List String) (piece : String) : Option (List String) :=
  match fs.root.descend? location with
  | some (.directory entries) =>
    if piece = "" ∨ piece = "." then some location
    else if piece = ".." then some location.dropLast
    else if (List.lookup piece entries).isSome then some (location ++ [piece])
    else none
  | _ => none

/-- The location where a path starts. -/
def origin (fs : FileSystem) (p : Path) : List String :=
  if p.absolute then [] else fs.workingDirectory

/-- The location that a path names. -/
def locate? (fs : FileSystem) (p : Path) : Option (List String) :=
  if p.isEmpty then none else p.pieces.foldlM fs.step? (fs.origin p)

/-- What a path names. -/
def find? (fs : FileSystem) (p : Path) : Option Entry :=
  fs.locate? p >>= fs.root.descend?

/-- Whether a path names something. -/
def has (fs : FileSystem) (p : Path) : Bool := (fs.find? p).isSome

/-- Whether a path names a file. -/
def isFile (fs : FileSystem) (p : Path) : Bool :=
  match fs.find? p with
  | some (.file _) => true
  | _ => false

/-- Whether a path names a directory. -/
def isDirectory (fs : FileSystem) (p : Path) : Bool :=
  match fs.find? p with
  | some (.directory _) => true
  | _ => false

/-! ### Changes -/

/-- Whether a directory is at a location. -/
def isDirectoryAt (fs : FileSystem) (location : List String) : Bool :=
  (fs.root.descend? location).any Entry.isDirectory

/-- Sets what is at a location. -/
def putAt (fs : FileSystem) (location : List String) (entry : Entry) : FileSystem :=
  { fs with root := Entry.put entry location fs.root }

/-- One piece of a path, from a location, as in `step?`; but a name that is missing from a directory
becomes the name of an empty directory there. -/
def enter? (fs : FileSystem) (location : List String) (piece : String) :
    Option (FileSystem × List String) :=
  match fs.step? location piece with
  | some next => some (fs, next)
  | none =>
    if fs.isDirectoryAt location then
      some (fs.putAt (location ++ [piece]) (.directory []), location ++ [piece])
    else none

/-- The location to which the pieces of a path lead, and the file system with all directories on the
way there. There is neither if a file is in the way. -/
def enterAll? (fs : FileSystem) (location pieces : List String) :
    Option (FileSystem × List String) :=
  pieces.foldlM (fun here piece => enter? here.1 here.2 piece) (fs, location)

/-- Creates a directory, unless it is there, and the directories that lead there. Nothing changes if
a file is in the way. -/
def createDirectory (fs : FileSystem) (p : Path) : FileSystem :=
  match fs.enterAll? (fs.origin p) p.pieces with
  | some (below, _) => below
  | none => fs

/-- Writes a file, and creates the directories that lead there. Nothing changes if a file is in the
way or the path cannot name a file. -/
def write (fs : FileSystem) (p : Path) (content : ByteArray) : FileSystem :=
  match fs.enterAll? (fs.origin p) p.pieces.dropLast, p.pieces.getLast? with
  | some (below, location), some name =>
    if name ∈ ["", ".", ".."] ∨ below.isDirectoryAt (location ++ [name]) then fs
    else if below.isDirectoryAt location then below.putAt (location ++ [name]) (.file content)
    else fs
  | _, _ => fs

/-- Removes a file, or a directory with all that it holds. Nothing changes if the path names
nothing, and a directory whose path ends in one dot or two is emptied but stays. -/
def remove (fs : FileSystem) (p : Path) : FileSystem :=
  match fs.locate? p with
  | some location =>
    if (p.pieces.filter (· != "")).getLast?.any (· ∈ [".", ".."]) then
      fs.putAt location (.directory [])
    else { fs with root := fs.root.erase location }
  | none => fs

example :
    let fs := (FileSystem.mk (.directory []) []).write (.ofText "a/b") .empty
    fs.isFile (.ofText "a/b") ∧ (fs.remove (.ofText "c/../a/b")).isFile (.ofText "a/b") ∧
      (fs.write (.ofText "c/../d") .empty).isDirectory (.ofText "c") := by decide

end FileSystem

/-! ### Schema files below a directory -/

/-- Whether a file name ends in a dot and `json`, with something in front of the dot. -/
def isSchemaName (name : String) : Bool :=
  match name.toList.reverse with
  | 'n' :: 'o' :: 's' :: 'j' :: '.' :: _ :: _ => true
  | _ => false

mutual

/-- The locations of the schema files below an entry, which itself is at `location`. -/
def Entry.schemaFiles (location : List String) : Entry → List (List String)
  | .file _ => []
  | .directory entries => schemaFilesIn location entries

/-- The locations of the schema files among some entries and below them. -/
def schemaFilesIn (location : List String) : List (String × Entry) → List (List String)
  | [] => []
  | (name, entry) :: rest =>
    (if !entry.isDirectory && isSchemaName name then [location ++ [name]] else []) ++
      entry.schemaFiles (location ++ [name]) ++ schemaFilesIn location rest

end

/-- Whether a location is another one or comes before it: the first names in which they differ
decide, and a directory comes before what it holds. -/
def atOrBefore : List String → List String → Bool
  | [], _ => true
  | _ :: _, [] => false
  | a :: as, b :: bs => if a = b then atOrBefore as bs else decide (a < b)

/-- The files that a path stands for: if it names a directory, the schema files below it, in
ascending order of the names on the way, or else the path itself. -/
def FileSystem.collect (fs : FileSystem) (p : Path) : List Path :=
  match fs.find? p with
  | some (.directory entries) =>
    ((schemaFilesIn [] entries).mergeSort atOrBefore).map fun names =>
      names.foldl Path.join p
  | _ => [p]

end SchemaAudit
