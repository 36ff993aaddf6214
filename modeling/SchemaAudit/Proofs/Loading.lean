/-
**What is read and what is fetched.**

Reading can end in several ways: there may be nothing at a path, or something that cannot be read,
or nothing may come from an address; and what comes may not be text, not JSON, not a schema or not a
settings file.  This module states the outcome from what is at the path or comes from the address,
without following the program, and proves that the program has just this outcome.

Main definitions:

* `Reads` — **the bytes of a file**, or the failure that there are none;
* `Settings.Loads` — **the settings of a file**, or the failure that comes of it;
* `Item.Brings`, `Item.Gives` — the bytes of an item, and **the report on an item**;
* `Failure.OfAccess`, `Failure.subject` — failures to read or to fetch, and what a failure is about.

Main results:

* `reads_iff`, `Settings.loads_iff`, `Item.brings_iff`, `Item.gives_iff` — these are the outcomes of
  the program;
* `Failure.exitCode_eq` — the exit code of a failure tells whether something could be read;
* `Failure.eq_of_message_eq` — the message tells failures about the same thing apart.
-/

import Mathlib
import SchemaAudit.Settings.Discovery
import SchemaAudit.Source

set_option relaxedAutoImplicit false
set_option autoImplicit false

namespace SchemaAudit

open Json (Value)

variable {around : Surroundings} {fs : FileSystem} {p : Path}

/-! ### Files -/

/-- **The bytes of a file**, or the failure that there are none. -/
inductive Reads (around : Surroundings) (fs : FileSystem) (p : Path) :
    Except Failure ByteArray → Prop
  | missing (nothing : fs.find? p = none) : Reads around fs p (.error (.notFound p.text))
  | directory {entries : List (String × Entry)} (there : fs.find? p = some (.directory entries)) :
      Reads around fs p (.error (.unreadable p.text around.directoryRefusal))
  | refused {content : ByteArray} {detail : String} (there : fs.find? p = some (.file content))
      (refused : around.refusal? p = some detail) :
      Reads around fs p (.error (.unreadable p.text detail))
  | content {content : ByteArray} (there : fs.find? p = some (.file content))
      (allowed : around.refusal? p = none) : Reads around fs p (.ok content)

/-- What is read from a file. -/
theorem reads_iff {outcome : Except Failure ByteArray} :
    Reads around fs p outcome ↔ readFile around fs p = outcome := by
  constructor
  · rintro (nothing | there | ⟨there, refused⟩ | ⟨there, allowed⟩)
    · rw [readFile, nothing]
    · rw [readFile, there]
    · rw [readFile, there, refused]
    · rw [readFile, there, allowed]
  · rintro rfl
    rw [readFile]
    split
    · exact .missing ‹_›
    · exact .directory ‹_›
    · split
      · exact .refused ‹_› ‹_›
      · exact .content ‹_› ‹_›

/-- Bytes are the encoding of at most one text, and this text is found. -/
theorem fromUTF8?_eq_some_iff {content : ByteArray} {text : String} :
    String.fromUTF8? content = some text ↔ content = text.toUTF8 := by
  rw [String.fromUTF8?, String.toUTF8_eq_toByteArray]
  constructor
  · intro h
    split at h
    · exact congrArg String.toByteArray (Option.some.inj h)
    · cases h
  · rintro rfl
    rw [dif_pos text.isValidUTF8]
    rfl

theorem fromUTF8?_toUTF8 (text : String) : String.fromUTF8? text.toUTF8 = some text :=
  fromUTF8?_eq_some_iff.2 rfl

theorem fromUTF8?_eq_none_iff {content : ByteArray} :
    String.fromUTF8? content = none ↔ ∀ text : String, content ≠ text.toUTF8 := by
  simp only [Option.eq_none_iff_forall_ne_some, ne_eq, fromUTF8?_eq_some_iff]

/-! ### Settings files -/

namespace Settings

/-- **The settings of a file**, or the failure that comes of it. -/
inductive Loads (around : Surroundings) (fs : FileSystem) (p : Path) :
    Except Failure Settings → Prop
  | unread {failure : Failure} (read : Reads around fs p (.error failure)) :
      Loads around fs p (.error failure)
  | notText {content : ByteArray} (read : Reads around fs p (.ok content))
      (notText : ∀ text : String, content ≠ text.toUTF8) :
      Loads around fs p (.error (.unreadable p.text around.encodingRefusal))
  | malformed {text : String} (read : Reads around fs p (.ok text.toUTF8))
      (refused : ofText? text = none) :
      Loads around fs p (.error (.malformedSettings p.text (around.settingsRefusal text)))
  | settings {text : String} {settings : Settings} (read : Reads around fs p (.ok text.toUTF8))
      (accepted : ofText? text = some settings) : Loads around fs p (.ok settings)

theorem load_of_content {content : ByteArray} (read : readFile around fs p = .ok content) :
    load around fs p =
      match String.fromUTF8? content with
      | none => .error (.unreadable p.text around.encodingRefusal)
      | some text => parse around p.text text := by
  rw [load, read]
  rfl

/-- What is loaded from a settings file. -/
theorem loads_iff {outcome : Except Failure Settings} :
    Loads around fs p outcome ↔ load around fs p = outcome := by
  constructor
  · rintro (read | ⟨read, notText⟩ | ⟨read, refused⟩ | ⟨read, accepted⟩)
    · rw [load, reads_iff.1 read]
      rfl
    · rw [load_of_content (reads_iff.1 read), fromUTF8?_eq_none_iff.2 notText]
    · rw [load_of_content (reads_iff.1 read), fromUTF8?_toUTF8]
      simp only [parse, refused]
    · rw [load_of_content (reads_iff.1 read), fromUTF8?_toUTF8]
      simp only [parse, accepted]
  · rintro rfl
    cases read : readFile around fs p with
    | error failure =>
        rw [load, read]
        exact .unread (reads_iff.2 read)
    | ok content =>
        rw [load_of_content read]
        split
        · exact .notText (reads_iff.2 read) (fromUTF8?_eq_none_iff.1 ‹_›)
        · rename_i text found
          obtain rfl := fromUTF8?_eq_some_iff.1 found
          rw [parse]
          split
          · exact .settings (reads_iff.2 read) ‹_›
          · exact .malformed (reads_iff.2 read) ‹_›

end Settings

/-! ### Items -/

namespace Item

/-- The bytes of an item, or the failure that there are none: they are read from a file or fetched
from an address, which without access to the network is taken for the path of a file. -/
inductive Brings (around : Surroundings) (fs : FileSystem) : Item → Except Failure ByteArray → Prop
  | file {p : Path} {outcome : Except Failure ByteArray} (read : Reads around fs p outcome) :
      Brings around fs (.file p) outcome
  | fetched {fetch : String → Except String ByteArray} {url : String} {content : ByteArray}
      (network : around.fetch? = some fetch) (fetched : fetch url = .ok content) :
      Brings around fs (.address url) (.ok content)
  | notFetched {fetch : String → Except String ByteArray} {url detail : String}
      (network : around.fetch? = some fetch) (refused : fetch url = .error detail) :
      Brings around fs (.address url) (.error (.notFetched url detail))
  | offline {url : String} {outcome : Except Failure ByteArray} (offline : around.fetch? = none)
      (read : Reads around fs (.ofText url) outcome) : Brings around fs (.address url) outcome

/-- What an item brings. -/
theorem brings_iff {item : Item} {outcome : Except Failure ByteArray} :
    item.Brings around fs outcome ↔ item.read around fs = outcome := by
  constructor
  · rintro (read | ⟨network, fetched⟩ | ⟨network, refused⟩ | ⟨offline, read⟩)
    · exact reads_iff.1 read
    · simp [Item.read, network, fetched, Except.mapError]
    · simp [Item.read, network, refused, Except.mapError]
    · simpa [Item.read, offline] using reads_iff.1 read
  · rintro rfl
    cases item with
    | file p => exact .file (reads_iff.2 rfl)
    | address url =>
        rw [Item.read]
        cases network : around.fetch? with
        | none => exact .offline network (reads_iff.2 rfl)
        | some fetch =>
            dsimp only
            cases fetched : fetch url with
            | error detail => exact .notFetched network fetched
            | ok content => exact .fetched network fetched

/-- **The report on an item**, or the failure that comes of it. -/
inductive Gives (around : Surroundings) (fs : FileSystem) (config : Config) (item : Item) :
    Except Failure Report → Prop
  | unavailable {failure : Failure} (brings : item.Brings around fs (.error failure)) :
      Gives around fs config item (.error failure)
  | notJson {content : ByteArray} (brings : item.Brings around fs (.ok content))
      (refused : ∀ text : String, content = text.toUTF8 → Value.ofText? text = none) :
      Gives around fs config item (.error (.malformedJson (around.jsonRefusal content)))
  | notSchema {text : String} {value : Value} {fault : Fault}
      (brings : item.Brings around fs (.ok text.toUTF8))
      (accepted : Value.ofText? text = some value)
      (misshapen : Document.ofValue? value = .error fault) :
      Gives around fs config item (.error (.invalidSchema fault))
  | report {text : String} {value : Value} {d : Document}
      (brings : item.Brings around fs (.ok text.toUTF8))
      (accepted : Value.ofText? text = some value) (decoded : Document.ofValue? value = .ok d) :
      Gives around fs config item (.ok { d.audit config with schemaPath := item.name })

theorem ofBytes?_toUTF8 (text : String) : Value.ofBytes? text.toUTF8 = Value.ofText? text := by
  rw [Value.ofBytes?, fromUTF8?_toUTF8]
  rfl

theorem ofBytes?_eq_none_iff {content : ByteArray} :
    Value.ofBytes? content = none ↔
      ∀ text : String, content = text.toUTF8 → Value.ofText? text = none := by
  rw [Value.ofBytes?, Option.bind_eq_bind, Option.bind_eq_none_iff]
  simp only [fromUTF8?_eq_some_iff]

theorem ofBytes?_eq_some_iff {content : ByteArray} {value : Value} :
    Value.ofBytes? content = some value ↔
      ∃ text : String, content = text.toUTF8 ∧ Value.ofText? text = some value := by
  rw [Value.ofBytes?, Option.bind_eq_bind, Option.bind_eq_some_iff]
  simp only [fromUTF8?_eq_some_iff]

theorem audit_of_content {config : Config} {item : Item} {content : ByteArray}
    (read : item.read around fs = .ok content) :
    item.audit around fs config =
      match Value.ofBytes? content with
      | none => .error (.malformedJson (around.jsonRefusal content))
      | some value =>
        match Document.ofValue? value with
        | .error fault => .error (.invalidSchema fault)
        | .ok d => .ok { d.audit config with schemaPath := item.name } := by
  have loaded : item.audit around fs config =
      (parseBytes around content >>= auditValue config).map fun report =>
        { report with schemaPath := item.name } := by
    rw [audit, load, read]
    rfl
  rw [loaded, parseBytes]
  cases Value.ofBytes? content with
  | none => rfl
  | some value =>
      have judged : ((.ok value : Except Failure Value) >>= auditValue config) =
          (Document.ofValue? value).mapError Failure.invalidSchema >>= fun d =>
            pure (d.audit config) := rfl
      dsimp only
      rw [judged]
      cases Document.ofValue? value <;> rfl

/-- What comes of an item. -/
theorem gives_iff {config : Config} {item : Item} {outcome : Except Failure Report} :
    item.Gives around fs config outcome ↔ item.audit around fs config = outcome := by
  constructor
  · rintro (brings | ⟨brings, refused⟩ | ⟨brings, accepted, misshapen⟩ |
      ⟨brings, accepted, decoded⟩)
    · rw [audit, load, brings_iff.1 brings]
      rfl
    · rw [audit_of_content (brings_iff.1 brings), ofBytes?_eq_none_iff.2 refused]
    · rw [audit_of_content (brings_iff.1 brings), ofBytes?_toUTF8, accepted]
      simp only [misshapen]
    · rw [audit_of_content (brings_iff.1 brings), ofBytes?_toUTF8, accepted]
      simp only [decoded]
  · rintro rfl
    cases read : item.read around fs with
    | error failure =>
        rw [audit, load, read]
        exact .unavailable (brings_iff.2 read)
    | ok content =>
        rw [audit_of_content read]
        split
        · exact .notJson (brings_iff.2 read) (ofBytes?_eq_none_iff.1 ‹_›)
        · rename_i value found
          obtain ⟨text, rfl, accepted⟩ := ofBytes?_eq_some_iff.1 found
          split
          · exact .notSchema (brings_iff.2 read) accepted ‹_›
          · exact .report (brings_iff.2 read) accepted ‹_›

end Item

/-! ### Failures -/

theorem Shape.text_injective : Function.Injective Shape.text := by
  intro shape other
  cases shape <;> cases other <;> decide

theorem Shape.comma_notMem_text (shape : Shape) : ',' ∉ shape.text.toList := by
  cases shape <;> decide

theorem Json.Kind.name_injective : Function.Injective Json.Kind.name := by
  intro kind other
  cases kind <;> cases other <;> decide

/-- The message tells faults at the same place apart. -/
theorem Fault.eq_of_message_eq {fault other : Fault} (h : fault.message = other.message)
    (pointer : fault.pointer = other.pointer) : fault = other := by
  have comma : ", got ".toList = ',' :: " got ".toList := by decide
  have after (kind : Json.Kind) : ',' ∉ " got ".toList ++ kind.name.toList := by
    cases kind <;> decide
  have wording := congrArg String.toList h
  simp only [message, String.toList_append, List.append_assoc, List.append_cancel_left_eq, comma,
    List.cons_append] at wording
  -- what is expected ends at the only comma
  obtain ⟨hexpected, -, hfound⟩ := (List.append_cons_inj_of_notMem
    fault.expected.comma_notMem_text (after fault.found)).1 wording
  have expected := Shape.text_injective (String.toList_injective hexpected)
  have found := Json.Kind.name_injective
    (String.toList_injective (List.append_cancel_left hfound))
  cases fault
  cases other
  simp_all

namespace Failure

/-- Something could not be read or fetched. -/
inductive OfAccess : Failure → Prop
  | notFound (path : String) : OfAccess (.notFound path)
  | unreadable (path detail : String) : OfAccess (.unreadable path detail)
  | notFetched (url detail : String) : OfAccess (.notFetched url detail)

/-- **The exit code of a failure** tells whether something could not be read or fetched. -/
theorem exitCode_eq (failure : Failure) :
    (failure.exitCode = 4 ∧ failure.OfAccess) ∨ (failure.exitCode = 3 ∧ ¬failure.OfAccess) := by
  cases failure with
  | notFound path => exact .inl ⟨rfl, .notFound path⟩
  | unreadable path detail => exact .inl ⟨rfl, .unreadable path detail⟩
  | notFetched url detail => exact .inl ⟨rfl, .notFetched url detail⟩
  | _ => exact .inr ⟨rfl, nofun⟩

/-- What a failure is about: a path, an address, or the steps to a part of a document. -/
def subject : Failure → List String
  | .notFound path | .unreadable path _ | .malformedSettings path _ => [path]
  | .notFetched url _ => [url]
  | .invalidSchema fault => fault.pointer
  | .malformedJson _ | .unknownProfile _ | .unknownConvention _ => []

/-- The words with which the message of a failure starts. -/
def heading : Failure → String
  | .notFound _ => "file not found: "
  | .unreadable _ _ => "cannot read "
  | .notFetched _ _ => "failed to fetch "
  | .malformedJson _ => "failed to parse JSON Schema: "
  | .invalidSchema _ => "invalid schema at "
  | .unknownProfile _ => "unknown profile: "
  | .unknownConvention _ => "unknown property case: "
  | .malformedSettings _ _ => "invalid config file "

/-- All headings; none of them is the start of another one. -/
def headings : List String :=
  ["file not found: ", "cannot read ", "failed to fetch ", "failed to parse JSON Schema: ",
    "invalid schema at ", "unknown profile: ", "unknown property case: ", "invalid config file "]

theorem heading_mem (failure : Failure) : failure.heading ∈ headings := by
  cases failure <;> simp [heading, headings]

theorem exists_message_eq (failure : Failure) :
    ∃ rest, failure.message = failure.heading ++ rest := by
  unfold message heading
  cases failure <;> simp only [String.append_assoc, String.append_right_inj, exists_eq']

theorem heading_prefix_message (failure : Failure) :
    failure.heading.toList <+: failure.message.toList := by
  obtain ⟨rest, h⟩ := failure.exists_message_eq
  rw [h, String.toList_append]
  exact List.prefix_append _ _

/-- No message starts with two of the headings. -/
theorem heading_eq_of_message_eq {f g : Failure} (h : f.message = g.message) :
    f.heading = g.heading := by
  have apart : ∀ a ∈ headings, ∀ b ∈ headings, a.toList <+: b.toList → a = b := by
    decide +kernel
  have hf := heading_prefix_message f
  have hg := heading_prefix_message g
  rw [h] at hf
  rcases List.prefix_or_prefix_of_prefix hf hg with hfg | hgf
  · exact apart _ f.heading_mem _ g.heading_mem hfg
  · exact (apart _ g.heading_mem _ f.heading_mem hgf).symm

/-- **The message tells failures about the same thing apart.** -/
theorem eq_of_message_eq {f g : Failure} (h : f.message = g.message)
    (same : f.subject = g.subject) : f = g := by
  have heading_eq := heading_eq_of_message_eq h
  cases f with
  | notFound path =>
      cases g with
      | notFound path' => rw [List.singleton_inj.1 same]
      | _ => simp [heading] at heading_eq
  | unreadable path detail =>
      cases g with
      | unreadable path' detail' =>
          obtain rfl := List.singleton_inj.1 same
          rw [(String.append_right_inj _).1 h]
      | _ => simp [heading] at heading_eq
  | notFetched url detail =>
      cases g with
      | notFetched url' detail' =>
          obtain rfl := List.singleton_inj.1 same
          rw [(String.append_right_inj _).1 h]
      | _ => simp [heading] at heading_eq
  | malformedJson detail =>
      cases g with
      | malformedJson detail' => rw [(String.append_right_inj _).1 h]
      | _ => simp [heading] at heading_eq
  | invalidSchema fault =>
      cases g with
      | invalidSchema fault' =>
          have pointer : fault.pointer = fault'.pointer := same
          have wording : "invalid schema at " ++ fault.pointer.text ++ ": " ++ fault.message =
            "invalid schema at " ++ fault'.pointer.text ++ ": " ++ fault'.message := h
          rw [pointer, String.append_right_inj] at wording
          rw [Fault.eq_of_message_eq wording pointer]
      | _ => simp [heading] at heading_eq
  | unknownProfile name =>
      cases g with
      | unknownProfile name' =>
          rw [(String.append_right_inj _).1 ((String.append_left_inj _).1 h)]
      | _ => simp [heading] at heading_eq
  | unknownConvention name =>
      cases g with
      | unknownConvention name' =>
          rw [(String.append_right_inj _).1 ((String.append_left_inj _).1 h)]
      | _ => simp [heading] at heading_eq
  | malformedSettings path detail =>
      cases g with
      | malformedSettings path' detail' =>
          obtain rfl := List.singleton_inj.1 same
          rw [(String.append_right_inj _).1 h]
      | _ => simp [heading] at heading_eq

end Failure

end SchemaAudit
