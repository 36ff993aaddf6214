/-
**Reading settings files.**

A settings file gives some of the five settings, one on a line, none of them twice:

    profile = "scale"
    property_case = "snake_case"
    max_union_variants = 12
    max_union_depth = 3
    discriminator_fields = ["kind", "type"]

* `Settings.Key` — the settings; `Settings.integer?` — the numbers that a file may give;
* `Settings.State.step` — the effect of one token on the machine that reads a file;
* `Settings.ofText?` — the settings of a file.
-/

import SchemaAudit.Config
import SchemaAudit.Settings.Token

set_option relaxedAutoImplicit false
set_option autoImplicit false

namespace SchemaAudit.Settings

/-! ### Keys and numbers -/

/-- What a line may set. -/
inductive Key where
  | profile
  | naming
  | maxUnionVariants
  | maxUnionDepth
  | tagFields
deriving DecidableEq

/-- The key of a name. -/
def Key.ofName? : String → Option Key
  | "profile" => some .profile
  | "property_case" => some .naming
  | "max_union_variants" => some .maxUnionVariants
  | "max_union_depth" => some .maxUnionDepth
  | "discriminator_fields" => some .tagFields
  | _ => none

/-- Whether a key is set. -/
def isSet (settings : Settings) : Key → Bool
  | .profile => settings.profile.isSome
  | .naming => settings.naming.isSome
  | .maxUnionVariants => settings.maxUnionVariants.isSome
  | .maxUnionDepth => settings.maxUnionDepth.isSome
  | .tagFields => settings.tagFields.isSome

/-- Sets a key that takes a text. -/
def setText? (settings : Settings) (key : Key) (text : String) : Option Settings :=
  match key with
  | .profile => some { settings with profile := some text }
  | .naming => some { settings with naming := some text }
  | _ => none

/-- Sets a key that takes a number. -/
def setNumber? (settings : Settings) (key : Key) (number : Nat) : Option Settings :=
  match key with
  | .maxUnionVariants => some { settings with maxUnionVariants := some number }
  | .maxUnionDepth => some { settings with maxUnionDepth := some number }
  | _ => none

/-- The value of digits of a radix. Underscores stand between digits only: `ready` tells whether
the next character may be one, that is whether a digit was last. -/
def digits? (radix : Nat) (value : Nat) (ready : Bool) : List Char → Option Nat
  | [] => if ready then some value else none
  | c :: rest =>
    if c = '_' then if ready then digits? radix value false rest else none
    else
      match hexValue? c with
      | some d => if d < radix then digits? radix (radix * value + d) true rest else none
      | none => none

/-- The value of decimal digits, without superfluous leading zeros. -/
def decimal? : List Char → Option Nat
  | '0' :: _ :: _ => none
  | cs => digits? 10 0 false cs

/-- The natural number that a word writes. A signed number is decimal, and minus zero is the only
number with a minus sign. -/
def natural? : List Char → Option Nat
  | '0' :: 'x' :: cs => digits? 16 0 false cs
  | '0' :: 'o' :: cs => digits? 8 0 false cs
  | '0' :: 'b' :: cs => digits? 2 0 false cs
  | '+' :: cs => decimal? cs
  | '-' :: cs => (decimal? cs).filter (· == 0)
  | cs => decimal? cs

/-- The number that a word writes, which must fit into 64 bits. -/
def integer? (cs : List Char) : Option Nat :=
  (natural? cs).filter (· < wordBound)

/-! ### The machine on tokens -/

/-- Where the machine stands. -/
inductive State where
  /-- At the start of a line. -/
  | lineStart (settings : Settings)
  /-- After a key. -/
  | key (settings : Settings) (key : Key)
  /-- After a key and the sign of equality. -/
  | value (settings : Settings) (key : Key)
  /-- Within a list, where an item or the end may follow. -/
  | item (settings : Settings) (items : List String)
  /-- Within a list, after an item. -/
  | afterItem (settings : Settings) (items : List String)
  /-- After a value. -/
  | lineEnd (settings : Settings)

namespace State

/-- The effect of a key. -/
def ofKey? (settings : Settings) (name : String) : Option State := do
  let key ← Key.ofName? name
  if settings.isSet key then none else some (.key settings key)

/-- The effect of the end of a list whose items are given last first. -/
def endList (settings : Settings) (items : List String) : State :=
  .lineEnd { settings with tagFields := some items.reverse }

/-- The effect of one token. -/
def step : State → Token → Option State
  | .lineStart settings, .newline => some (.lineStart settings)
  | .lineStart settings, .word name => ofKey? settings (String.ofList name)
  | .lineStart settings, .line name => ofKey? settings name
  | .key settings k, .equals => some (.value settings k)
  | .value settings k, .line text => (settings.setText? k text).map .lineEnd
  | .value settings k, .block text => (settings.setText? k text).map .lineEnd
  | .value settings k, .word word => do
    let number ← integer? word
    (settings.setNumber? k number).map .lineEnd
  | .value settings .tagFields, .openBracket => some (.item settings [])
  | .item settings items, .newline => some (.item settings items)
  | .item settings items, .line text => some (.afterItem settings (text :: items))
  | .item settings items, .block text => some (.afterItem settings (text :: items))
  | .item settings items, .closeBracket => some (endList settings items)
  | .afterItem settings items, .newline => some (.afterItem settings items)
  | .afterItem settings items, .comma => some (.item settings items)
  | .afterItem settings items, .closeBracket => some (endList settings items)
  | .lineEnd settings, .newline => some (.lineStart settings)
  | _, _ => none

/-- The settings that have been read, at the end of the file. -/
def result? : State → Option Settings
  | .lineStart settings => some settings
  | .lineEnd settings => some settings
  | _ => none

end State

/-! ### Whole files -/

/-- The automaton of tokens and the machine that they drive. -/
def scanner : Scanner Mode Token State where
  step := Mode.step
  finish := Mode.finish
  drive := State.step

/-- Drops the mark that may open a text file. -/
def dropMark : List Char → List Char
  | '\ufeff' :: cs => cs
  | cs => cs

/-- The settings of a file. -/
def ofText? (text : String) : Option Settings :=
  scanner.run (.between, .lineStart {}) (dropMark text.toList) >>= State.result?

/-- The settings of a file, or the failure that it is malformed. The path is what the failure
shows. -/
def parse (around : Surroundings) (path text : String) : Except Failure Settings :=
  match ofText? text with
  | some settings => .ok settings
  | none => .error (.malformedSettings path (around.settingsRefusal text))

example : integer? "0x1F".toList = some 31 ∧ integer? "1_000".toList = some 1000 := by decide

example : integer? "1__0".toList = none ∧ integer? "01".toList = none := by decide

example : ofText? "max_union_depth = 3 # levels\n" = some { maxUnionDepth := some 3 } := by decide

example : ofText? "profile = \"\\x73cale\"" = some { profile := some "scale" } := by decide

example : ofText? "profile = 1\n" = none := by decide

end SchemaAudit.Settings
