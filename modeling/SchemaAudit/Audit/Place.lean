/-
**Places in a document.**

* `Place` — a definition or the root, and the steps that lead from there to a part of it;
* `Place.path` — the notation in which issues show a place. Names stand in it as they are.
-/

import SchemaAudit.Schema.Basic

set_option relaxedAutoImplicit false
set_option autoImplicit false

namespace SchemaAudit

/-- The keywords that compose schemas. Those that offer a choice, `anyOf` and `oneOf`, make a
union. -/
inductive Composition where
  | anyOf
  | oneOf
  | allOf
deriving DecidableEq, Inhabited

/-- The keyword as it is written. -/
def Composition.keyword : Composition → String
  | .anyOf => "anyOf"
  | .oneOf => "oneOf"
  | .allOf => "allOf"

/-- Where the way to a place starts. -/
inductive Origin where
  /-- At the root of the document. -/
  | document
  /-- At a definition. -/
  | definition (group : DefinitionGroup) (name : String)
deriving DecidableEq, Inhabited

/-- The notation of an origin. -/
def Origin.path : Origin → String
  | .document => "$"
  | .definition group name => "$/" ++ group.keyword ++ "/" ++ name

/-- The name of the definition, if the origin is one. -/
def Origin.typeName? : Origin → Option String
  | .document => none
  | .definition _ name => some name

/-- One step into a schema. -/
inductive Step where
  | property (name : String)
  | items
  | additional
  /-- To a list of branches. -/
  | composition (keyword : Composition)
  /-- From a list of branches to one of them. -/
  | branch (index : Nat)
deriving DecidableEq, Inhabited

/-- The notation of a step. -/
def Step.path : Step → String
  | .property name => "properties/" ++ name
  | .items => "items"
  | .additional => "additionalProperties"
  | .composition keyword => keyword.keyword
  | .branch index => toString index

/-- A place in a document. -/
inductive Place where
  | origin (origin : Origin)
  | step (parent : Place) (step : Step)
deriving DecidableEq, Inhabited

namespace Place

/-- Where the way to a place starts. -/
def start : Place → Origin
  | .origin o => o
  | .step parent _ => parent.start

/-- The notation of a place. -/
def path : Place → String
  | .origin o => o.path
  | .step parent s => parent.path ++ "/" ++ s.path

end Place

end SchemaAudit
