/-
**Failures and surroundings.**

A failure ends a run before there is a report. What is found within a schema is never a failure.

Some things are not decided by the program: the network decides what comes from an address, the
system whether a file may be read, and each reader what it says of a text that it refuses. They are
gathered in the surroundings, of which nothing is assumed.

* `Failure` — the causes; `Failure.message`, `Failure.exitCode` — their wording, and the exit code
  of a program that ends with them;
* `Surroundings` — what is decided outside of the program;
* `readFile` — the bytes of a file.
-/

import SchemaAudit.Files.Tree
import SchemaAudit.Schema.Decode

set_option relaxedAutoImplicit false
set_option autoImplicit false

namespace SchemaAudit

/-! ### Failures -/

/-- Why a run ended without a report. The details are in the words of whoever refused. -/
inductive Failure where
  /-- There is nothing at a path. -/
  | notFound (path : String)
  /-- There is something at a path, but it cannot be read, or not in the expected encoding. -/
  | unreadable (path detail : String)
  /-- Nothing comes from an address. -/
  | notFetched (url detail : String)
  /-- A document is not JSON. -/
  | malformedJson (detail : String)
  /-- A document is JSON, but not a schema. -/
  | invalidSchema (fault : Fault)
  /-- A setting names no profile. -/
  | unknownProfile (name : String)
  /-- A setting names no naming convention. -/
  | unknownConvention (name : String)
  /-- A settings file is malformed. -/
  | malformedSettings (path detail : String)
deriving DecidableEq, Inhabited

/-- The wording of a failure. -/
def Failure.message : Failure → String
  | .notFound path => "file not found: " ++ path
  | .unreadable path detail => "cannot read " ++ path ++ ": " ++ detail
  | .notFetched url detail => "failed to fetch " ++ url ++ ": " ++ detail
  | .malformedJson detail => "failed to parse JSON Schema: " ++ detail
  | .invalidSchema fault => "invalid schema at " ++ fault.pointer.text ++ ": " ++ fault.message
  | .unknownProfile name => "unknown profile: " ++ name ++ " (use 'default' or 'scale')"
  | .unknownConvention name =>
    "unknown property case: " ++ name ++
      " (use none, camelCase, snake_case, kebab-case, or PascalCase)"
  | .malformedSettings path detail => "invalid config file " ++ path ++ ": " ++ detail

/-- The exit code of a run that failed: 4 where something could not be read or fetched, else 3. -/
def Failure.exitCode : Failure → Nat
  | .notFound _ | .unreadable _ _ | .notFetched _ _ => 4
  | _ => 3

/-! ### Surroundings -/

/-- What is decided outside of the program, and stays the same while it runs. -/
structure Surroundings where
  /-- What comes from an address: the bytes of a document, or why there are none. A program that
  was built without access to the network has no such function. -/
  fetch? : Option (String → Except String ByteArray)
  /-- Why the file at a path must not be read, if that is so. -/
  refusal? : Path → Option String
  /-- What is said of a directory that is to be read like a file. -/
  directoryRefusal : String
  /-- What is said of a file that is not text where text is expected. -/
  encodingRefusal : String
  /-- What the reader of JSON says of bytes that it refuses. -/
  jsonRefusal : ByteArray → String
  /-- What the reader of settings files says of a text that it refuses. -/
  settingsRefusal : String → String
  /-- How the reader of command lines answers arguments that ask for help. -/
  help : List String → String
  /-- The lines in which the reader of command lines refuses arguments. -/
  misuse : List String → List String

/-- The bytes of a file. -/
def readFile (around : Surroundings) (fs : FileSystem) (p : Path) : Except Failure ByteArray :=
  match fs.find? p with
  | none => .error (.notFound p.text)
  | some (.directory _) => .error (.unreadable p.text around.directoryRefusal)
  | some (.file content) =>
    match around.refusal? p with
    | some detail => .error (.unreadable p.text detail)
    | none => .ok content

end SchemaAudit
