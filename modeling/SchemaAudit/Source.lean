/-
**Documents and where they come from.**

* `auditBytes`, `auditText`, `auditValue` — the report on a document in one of its forms;
* `isUrl` — whether a source is meant as the address of a document;
* `Item` — what is audited on its own: a file, or what comes from an address;
* `Item.read`, `Item.load`, `Item.audit` — the bytes of an item, its JSON value, and the report on
  it.
-/

import SchemaAudit.Audit.Check
import SchemaAudit.Failure
import SchemaAudit.Json.Reader

set_option relaxedAutoImplicit false
set_option autoImplicit false

namespace SchemaAudit

/-! ### Documents -/

/-- The value of a JSON text in bytes. -/
def parseBytes (around : Surroundings) (bytes : ByteArray) : Except Failure Json.Value :=
  match Json.Value.ofBytes? bytes with
  | some value => .ok value
  | none => .error (.malformedJson (around.jsonRefusal bytes))

/-- The value of a JSON text. -/
def parseText (around : Surroundings) (text : String) : Except Failure Json.Value :=
  match Json.Value.ofText? text with
  | some value => .ok value
  | none => .error (.malformedJson (around.jsonRefusal text.toUTF8))

/-- The document of a JSON value. -/
def decode (value : Json.Value) : Except Failure Document :=
  (Document.ofValue? value).mapError .invalidSchema

/-- The report on a JSON value. -/
def auditValue (config : Config) (value : Json.Value) : Except Failure Report :=
  return (← decode value).audit config

/-- The report on a JSON text. -/
def auditText (around : Surroundings) (config : Config) (text : String) : Except Failure Report :=
  parseText around text >>= auditValue config

/-- The report on a JSON text in bytes. -/
def auditBytes (around : Surroundings) (config : Config) (bytes : ByteArray) :
    Except Failure Report :=
  parseBytes around bytes >>= auditValue config

/-! ### Files and addresses -/

/-- Whether a source is meant as the address of a document. Such a source is never searched like a
directory. -/
def isUrl (source : String) : Bool :=
  "http://".toList.isPrefixOf source.toList || "https://".toList.isPrefixOf source.toList

/-- What is audited on its own. -/
inductive Item where
  | file (p : Path)
  | address (url : String)
deriving DecidableEq, Inhabited

namespace Item

/-- The item of a source that is not searched like a directory. -/
def ofSource (source : String) : Item :=
  if isUrl source then .address source else .file (Path.ofText source)

/-- How an item is called in reports: as it was asked for. -/
def name : Item → String
  | .file p => p.text
  | .address url => url

/-- The bytes of an item. Without access to the network, an address is the path of a file. -/
def read (around : Surroundings) (fs : FileSystem) : Item → Except Failure ByteArray
  | .file p => readFile around fs p
  | .address url =>
    match around.fetch? with
    | some fetch => (fetch url).mapError (.notFetched url)
    | none => readFile around fs (Path.ofText url)

/-- The JSON value of an item. -/
def load (around : Surroundings) (fs : FileSystem) (item : Item) : Except Failure Json.Value :=
  item.read around fs >>= parseBytes around

/-- The report on an item. -/
def audit (around : Surroundings) (fs : FileSystem) (config : Config) (item : Item) :
    Except Failure Report := do
  let report ← item.load around fs >>= auditValue config
  return { report with schemaPath := item.name }

end Item

end SchemaAudit
