/-
**Unions.**

A union is the list of branches of an `anyOf` or a `oneOf`. To decode a value of a union, something
must tell its branches apart: a *tag*, which is a property that holds another constant string in
every branch. A branch that refers to another schema is not looked into, and an empty slot is not
a branch to look at.

* `Union` — a union in its place; `Union.variants` — its inline branches, with their indices;
* `isNullable`, `isReferencesOnly`, `isReferencePair` — unions that need no tag;
* `Union.tagField?`, `Union.attemptedField?` — the field that tags a union, and the field that was
  meant to;
* `Union.verdict` — the one of six cases in which a union is.
-/

import SchemaAudit.Audit.Place

set_option relaxedAutoImplicit false
set_option autoImplicit false

namespace SchemaAudit

/-! ### Branches -/

/-- The inline branches of a list, that is those that are there and are not references. The first
slot has the given index. -/
def inlineFrom (index : Nat) : List Slot → List (Nat × Schema)
  | [] => []
  | none :: rest => inlineFrom (index + 1) rest
  | some s :: rest =>
    if s.isReference then inlineFrom (index + 1) rest
    else (index, s) :: inlineFrom (index + 1) rest

/-- Whether the branches are a type and its absence: one of two branches has the type `null`, and
the other one has a type or is a reference. -/
def isNullable (branches : List Slot) : Bool :=
  let isNull (s : Schema) := s.singleType? == some "null"
  branches.length == 2 &&
    branches.reduceOption.any isNull &&
    branches.reduceOption.any fun s => !isNull s && (s.hasType || s.isReference)

/-- Whether all branches are references. -/
def isReferencesOnly (branches : List Slot) : Bool :=
  branches.reduceOption.all Schema.isReference

/-- Whether a text contains a word. -/
def containsWord (word : List Char) : List Char → Bool
  | [] => word.isEmpty
  | c :: rest => word.isPrefixOf (c :: rest) || containsWord word rest

/-- The property by which a branch shows that it stands for a reference. -/
def referenceProperty : String := "$component_ref"

/-- Whether a branch is the reference side of a pair: it has the property that shows it, or it is
a reference whose target is named for one. -/
def isReferenceSide (s : Schema) : Bool :=
  (s.property? referenceProperty).isSome ||
    (s.isReference && containsWord "Ref".toList s.keywords.ref.toList)

/-- Whether the branches offer a choice between a reference and an inline schema. -/
def isReferencePair (branches : List Slot) : Bool :=
  branches.length == 2 && branches.reduceOption.any isReferenceSide

/-! ### Unions and their tags -/

/-- A union in its place. -/
structure Union where
  place : Place
  /-- `anyOf` or `oneOf`. -/
  keyword : Composition
  /-- The branches; none of the slots is left out. -/
  branches : List Slot
  /-- The number of unions within whose branches it stands. -/
  depth : Nat
deriving Inhabited

namespace Union

/-- The inline branches, with their indices. -/
def variants (u : Union) : List (Nat × Schema) := inlineFrom 0 u.branches

/-- Whether the rules for unions apply, and the branches are looked into. -/
def isExamined (u : Union) : Bool :=
  !isNullable u.branches && !isReferencesOnly u.branches

/-- The tags that the inline branches have under a field. A branch that has none is left out. -/
def tags (u : Union) (field : String) : List String :=
  u.variants.filterMap fun variant => variant.2.tag? field

/-- Whether a field tells the inline branches apart: there are as many different tags under it as
inline branches. -/
def isTaggedBy (u : Union) (field : String) : Bool :=
  (u.tags field).eraseDups.length == u.variants.length

/-- The first field that tells the inline branches apart. A union of one branch has none, nor has
one without inline branches. -/
def tagField? (u : Union) (fields : List String) : Option String :=
  if u.branches.length < 2 || u.variants.isEmpty then none else fields.find? u.isTaggedBy

/-- The first field under which at least two inline branches have a tag. -/
def attemptedField? (u : Union) (fields : List String) : Option String :=
  fields.find? fun field =>
    2 ≤ u.variants.countP fun variant => (variant.2.tag? field).isSome

end Union

/-! ### Verdicts -/

/-- The case in which a union is. -/
inductive Verdict where
  /-- It is a type and its absence. -/
  | nullable
  /-- All branches are references. -/
  | referencesOnly
  /-- A field tells the branches apart. -/
  | tagged (field : String)
  /-- It needs no tag, being a choice between a reference and an inline schema. -/
  | referencePair (attempt : Option String)
  /-- It needs a tag and has none; a field may have been meant to be the tag. -/
  | untagged (attempt : Option String)
  /-- There is a single branch and nothing to tell apart. -/
  | lone
deriving DecidableEq, Inhabited

/-- The case in which a union is, given the fields that may tag it. -/
def Union.verdict (u : Union) (fields : List String) : Verdict :=
  if isNullable u.branches then .nullable
  else if isReferencesOnly u.branches then .referencesOnly
  else if u.branches.length < 2 then .lone
  else
    match u.tagField? fields with
    | some field => .tagged field
    | none =>
      if isReferencePair u.branches then .referencePair (u.attemptedField? fields)
      else .untagged (u.attemptedField? fields)

end SchemaAudit
