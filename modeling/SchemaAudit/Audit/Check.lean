/-
**The checks.**

* `scaleFindings` — what the scale profile has to say about a schema;
* `tagFindings` — the branches that break a tag; `Union.findings` — what is wrong with a union;
* `nameFindings` — names that do not follow the convention;
* `Visit.findings`, `Document.findings`, `Document.audit` — all findings, and the report of them.
-/

import SchemaAudit.Audit.Walk
import SchemaAudit.Audit.Finding
import SchemaAudit.Config

set_option relaxedAutoImplicit false
set_option autoImplicit false

namespace SchemaAudit

/-- A finding, if a condition holds. -/
def findIf (condition : Bool) (place : Place) (problem : Problem) : List Finding :=
  if condition then [⟨place, problem⟩] else []

/-! ### Schemas -/

/-- The composition of a schema by one keyword. -/
def compositionFindings (place : Place) (keyword : Composition) (branches : List Slot) :
    List Finding :=
  findIf (!branches.isEmpty) (place.step (.composition keyword)) (.composition keyword)

/-- What the scale profile has to say about a schema. -/
def scaleFindings (place : Place) (s : Schema) : List Finding :=
  compositionFindings place .anyOf s.keywords.anyOf ++
    compositionFindings place .oneOf s.keywords.oneOf ++
    compositionFindings place .allOf s.keywords.allOf ++
    findIf s.isOpen place .openObject ++
    findIf (!s.hasType && s.isMeaningful) place .missingType ++
    findIf s.hasMixedType place (.mixedType s.typeList)

/-- The names that do not follow a convention. -/
def nameFindings (convention : NamingConvention) (place : Place) (names : List String) :
    List Finding :=
  names.flatMap fun name =>
    findIf (!convention.accepts name) (place.step (.property name)) (.misnamed name convention)

/-! ### Unions -/

/-- The branches that break a tag: they do not declare it, leave its value open, or repeat one of
the tags `seen` before. A value that is no string is let pass. -/
def tagFindings (place : Place) (field : String) (seen : List String) :
    List (Nat × Schema) → List Finding
  | [] => []
  | (index, variant) :: rest =>
    let branch := place.step (.branch index)
    match variant.property? field with
    | none => ⟨branch, .missingTag field⟩ :: tagFindings place field seen rest
    | some property =>
      match property.keywords.const with
      | none => ⟨branch.step (.property field), .openTag field⟩ :: tagFindings place field seen rest
      | some value =>
        match value.string? with
        | none => tagFindings place field seen rest
        | some tag =>
          if seen.contains tag then
            ⟨branch.step (.property field), .repeatedTag tag⟩ :: tagFindings place field seen rest
          else tagFindings place field (tag :: seen) rest

namespace Union

/-- The branches that break the tag that was meant, if one was. -/
def attemptFindings (u : Union) (attempt : Option String) : List Finding :=
  match attempt with
  | some field => tagFindings u.place field [] u.variants
  | none => []

/-- What a verdict has to say about the tag of a union. A tag that was found is checked like one
that was only meant. -/
def verdictFindings (u : Union) : Verdict → List Finding
  | .tagged field => tagFindings u.place field [] u.variants
  | .untagged attempt => ⟨u.place, .untaggedUnion u.keyword⟩ :: u.attemptFindings attempt
  | .referencePair attempt => u.attemptFindings attempt
  | .nullable | .referencesOnly | .lone => []

/-- The inline branches that are open to further properties. -/
def openFindings (u : Union) : List Finding :=
  u.variants.flatMap fun variant =>
    findIf variant.2.isOpen (u.place.step (.branch variant.1)) .openVariant

/-- What is wrong with a union. -/
def findings (config : Config) (u : Union) : List Finding :=
  if u.isExamined then
    findIf (config.maxUnionVariants < u.branches.length) u.place
        (.largeUnion u.branches.length config.maxUnionVariants) ++
      findIf (config.maxUnionDepth ≤ u.depth) u.place
        (.nestedUnion (u.depth + 1) config.maxUnionDepth) ++
      u.verdictFindings (u.verdict config.tagFields) ++
      u.openFindings
  else []

end Union

/-! ### Documents -/

/-- What is wrong at a stop of the walk. -/
def Visit.findings (config : Config) : Visit → List Finding
  | .schema place s => if config.isScale then scaleFindings place s else []
  | .union u => u.findings config
  | .names place declared => nameFindings config.naming place declared

/-- What is wrong with a document. -/
def Document.findings (config : Config) (d : Document) : List Finding :=
  d.visits.flatMap (Visit.findings config)

/-- The report on a document. -/
def Document.audit (config : Config) (d : Document) : Report where
  issues := (d.findings config).map Finding.issue

end SchemaAudit
