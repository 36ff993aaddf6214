/-
**Configuration and settings.**

A `Config` says how to audit. `Settings` are what a settings file or a command line says about it:
every value may be left open, and names are not checked until the settings are resolved.

* `Profile` — the two sets of rules; `Config` and its default;
* `Settings.orElse` — settings of higher precedence, completed by a fallback;
* `Settings.resolve` — the configuration of some settings, unless a name is unknown.
-/

import SchemaAudit.Naming
import SchemaAudit.Failure

set_option relaxedAutoImplicit false
set_option autoImplicit false

namespace SchemaAudit

/-! ### Profiles -/

/-- A set of rules. -/
inductive Profile where
  /-- Tags, size and nesting of unions. -/
  | standard
  /-- Also: no composition, no open objects, one explicit type for every schema. -/
  | scale
deriving DecidableEq, Inhabited

/-- The name of a profile. -/
def Profile.name : Profile → String
  | .standard => "default"
  | .scale => "scale"

/-- The profile of a name. -/
def Profile.ofName? : String → Option Profile
  | "default" => some .standard
  | "scale" => some .scale
  | _ => none

/-- A profile is found again under its name. -/
theorem Profile.ofName?_name (profile : Profile) : ofName? profile.name = some profile := by
  cases profile <;> rfl

/-- The profile of a name, or the failure that the name is unknown. -/
def Profile.parse (name : String) : Except Failure Profile :=
  match Profile.ofName? name with
  | some profile => .ok profile
  | none => .error (.unknownProfile name)

/-- The convention of a name, or the failure that the name is unknown. -/
def NamingConvention.parse (name : String) : Except Failure NamingConvention :=
  match NamingConvention.ofName? name with
  | some convention => .ok convention
  | none => .error (.unknownConvention name)

/-! ### Configurations -/

/-- How to audit a schema. -/
structure Config where
  profile : Profile := .standard
  /-- The convention for property names. -/
  naming : NamingConvention := .camel
  /-- Unions with more branches than this are large. -/
  maxUnionVariants : Nat := 10
  /-- Unions within at least this many other unions are nested too deeply. -/
  maxUnionDepth : Nat := 2
  /-- The properties that may carry the tag of a union, in order of preference. -/
  tagFields : List String := ["component_type", "type", "kind"]
deriving DecidableEq, Inhabited

/-- Whether the rules of the scale profile apply. -/
def Config.isScale (config : Config) : Bool := config.profile == .scale

/-! ### Settings -/

/-- Settings as they are written, each of them optional. -/
structure Settings where
  profile : Option String := none
  naming : Option String := none
  maxUnionVariants : Option Nat := none
  maxUnionDepth : Option Nat := none
  tagFields : Option (List String) := none
deriving DecidableEq, Inhabited

namespace Settings

/-- Fills what is left open from a fallback. -/
def orElse (settings fallback : Settings) : Settings where
  profile := settings.profile <|> fallback.profile
  naming := settings.naming <|> fallback.naming
  maxUnionVariants := settings.maxUnionVariants <|> fallback.maxUnionVariants
  maxUnionDepth := settings.maxUnionDepth <|> fallback.maxUnionDepth
  tagFields := settings.tagFields <|> fallback.tagFields

/-- The configuration of some settings: what is left open takes its default. -/
def resolve (settings : Settings) : Except Failure Config := do
  let default : Config := {}
  let profile ← settings.profile.elim (.ok default.profile) Profile.parse
  let naming ← settings.naming.elim (.ok default.naming) NamingConvention.parse
  return {
    profile, naming
    maxUnionVariants := settings.maxUnionVariants.getD default.maxUnionVariants
    maxUnionDepth := settings.maxUnionDepth.getD default.maxUnionDepth
    tagFields := settings.tagFields.getD default.tagFields }

end Settings

end SchemaAudit
