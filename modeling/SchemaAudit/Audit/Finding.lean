/-
**Findings.**

A finding is a problem in its place. The kind of problem determines its code, its severity and its
wording.

* `Problem` — what can be wrong, with what is needed to tell it;
* `Finding` — a problem in its place; `Finding.issue` — the issue that reports it.
-/

import SchemaAudit.Audit.Place
import SchemaAudit.Naming
import SchemaAudit.Report

set_option relaxedAutoImplicit false
set_option autoImplicit false

namespace SchemaAudit

/-- A problem. -/
inductive Problem where
  /-- The scale profile allows no composition. -/
  | composition (keyword : Composition)
  /-- The scale profile allows no open objects. -/
  | openObject
  /-- The scale profile wants a type. -/
  | missingType
  /-- The scale profile wants a single type. -/
  | mixedType (names : List String)
  /-- A union has more branches than the limit. -/
  | largeUnion (size limit : Nat)
  /-- A union is nested deeper than the limit; `levels` counts the union itself. -/
  | nestedUnion (levels limit : Nat)
  /-- A union has no tag. -/
  | untaggedUnion (keyword : Composition)
  /-- A branch does not declare the tag of its union. -/
  | missingTag (field : String)
  /-- A branch declares the tag of its union, but leaves its value open. -/
  | openTag (field : String)
  /-- A branch has the tag of an earlier one. -/
  | repeatedTag (value : String)
  /-- A branch is open to further properties. -/
  | openVariant
  /-- The name of a property does not follow the convention. -/
  | misnamed (name : String) (convention : NamingConvention)
deriving DecidableEq, Inhabited

namespace Problem

/-- The code of a problem. -/
def code : Problem → Code
  | .composition _ => .compositionDisallowed
  | .openObject => .additionalPropertiesDisallowed
  | .missingType => .missingType
  | .mixedType _ => .mixedTypeDisallowed
  | .largeUnion _ _ => .largeUnion
  | .nestedUnion _ _ => .nestedUnion
  | .untaggedUnion _ => .unionNoDiscriminator
  | .missingTag _ | .openTag _ => .missingConst
  | .repeatedTag _ => .duplicateConstValue
  | .openVariant => .additionalProperties
  | .misnamed _ _ => .invalidPropertyCase

/-- The severity of a problem. -/
def severity : Problem → Severity
  | .largeUnion _ _ | .nestedUnion _ _ | .openVariant => .warning
  | _ => .error

/-- The wording of a problem. -/
def message : Problem → String
  | .composition keyword => keyword.keyword ++ " is disallowed in scale profile"
  | .openObject => "additionalProperties: true is disallowed in scale profile"
  | .missingType => "missing explicit type field in scale profile"
  | .mixedType names =>
    "mixed type array [" ++ " ".intercalate names ++ "] is disallowed in scale profile"
  | .largeUnion size limit =>
    "Union has " ++ toString size ++ " variants (threshold: " ++ toString limit ++ ")"
  | .nestedUnion levels limit =>
    "Union nested " ++ toString levels ++ " levels deep (threshold: " ++ toString limit ++ ")"
  | .untaggedUnion keyword => keyword.keyword ++ " union has no discriminator field"
  | .missingTag field => "Variant missing discriminator property '" ++ field ++ "'"
  | .openTag field => "Discriminator property '" ++ field ++ "' has no const value"
  | .repeatedTag value => "Duplicate discriminator value '" ++ value ++ "'"
  | .openVariant => "Union variant has additionalProperties: true"
  | .misnamed name convention =>
    "Property '" ++ name ++ "' is not in " ++ convention.name

/-- What to do about a problem. -/
def suggestion : Problem → String
  | .composition .allOf => "Flatten the schema structure instead of using composition"
  | .composition _ => "Use separate schema definitions instead of unions"
  | .openObject =>
    "Set additionalProperties: false or remove it to ensure strict type mapping"
  | .missingType => "Add a 'type' field to specify the schema type"
  | .mixedType _ => "Use a single type; for nullable types, use a separate null check"
  | .largeUnion _ _ => "Consider splitting into smaller, more focused unions"
  | .nestedUnion _ _ => "Flatten the union hierarchy for better static type mapping"
  | .untaggedUnion _ =>
    "Add a const property (e.g., 'type' or 'kind') to each variant with a unique value"
  | .missingTag field =>
    "Add '" ++ field ++ "' property with a const value to this variant"
  | .openTag field =>
    "Add 'const' to the '" ++ field ++ "' property with a unique string value"
  | .repeatedTag _ => "Each variant must have a unique const value for the discriminator"
  | .openVariant => "Set additionalProperties: false to avoid ambiguous JSON decoding"
  | .misnamed _ convention =>
    "Rename property to follow the " ++ convention.name ++ " convention"

end Problem

/-- A problem in its place. -/
structure Finding where
  place : Place
  problem : Problem
deriving DecidableEq, Inhabited

/-- The issue that reports a finding. -/
def Finding.issue (f : Finding) : Issue where
  code := f.problem.code
  severity := f.problem.severity
  path := f.place.path
  message := f.problem.message
  suggestion := some f.problem.suggestion
  typeName := f.place.start.typeName?

end SchemaAudit
