/-
**Schemas.**

A schema is a boolean or an object. The object keeps the keywords that an audit looks at; what
else a schema may say is not represented. A subschema stands in a *slot*, which may be empty: a
literal `null` where a schema is expected stands for no schema.

Only what decoding gives can be expressed. There is no boolean schema with keywords beside it, and
a boolean schema under `additionalProperties` is the literal `true` or `false`, never a schema that
happens to be boolean: decoding takes a boolean there for the literal.

* `TypeDecl` — the `type` keyword; `Keywords` — what an object schema says;
* `Schema` — schemas; `Schema.keywords` views a boolean schema as one that says nothing;
* `Schema.isReference`, `Schema.hasType`, `Schema.isOpen`, … — questions about one schema;
* `Keywords.subschemas`, `Schema.inductionOn` — the direct parts of a schema, and induction along
  them;
* `Schema.Sorted` — names ascend in every map of a schema;
* `Document` — a root schema with its two groups of definitions, all of them sorted.
-/

import SchemaAudit.Json.Value
import SchemaAudit.NameMap

set_option relaxedAutoImplicit false
set_option autoImplicit false

namespace SchemaAudit

/-! ### Schemas -/

/-- The `type` keyword: one name, or a list of names. -/
inductive TypeDecl where
  | single (name : String)
  | list (names : List String)
deriving DecidableEq, Inhabited

/-- The keywords of an object schema, over a type `α` of subschemas. Empty lists and an empty
`ref` stand for keywords that are absent. -/
structure Keywords (α : Type) where
  /-- `type` -/
  type : Option TypeDecl := none
  /-- `properties`, as a map from names -/
  properties : List (String × Option α) := []
  /-- `required` -/
  required : List String := []
  /-- `items`, in its form with one schema for all items -/
  items : Option α := none
  /-- `additionalProperties`, where a boolean schema stands for the literal `true` or `false` -/
  additional : Option α := none
  /-- `anyOf` -/
  anyOf : List (Option α) := []
  /-- `oneOf` -/
  oneOf : List (Option α) := []
  /-- `allOf` -/
  allOf : List (Option α) := []
  /-- `const`, which may be the value `null` -/
  const : Option Json.Value := none
  /-- `enum` -/
  enum : List Json.Value := []
  /-- `$ref` -/
  ref : String := ""
deriving Inhabited

/-- A schema. It is a literal or it has keywords, and never both. -/
inductive Schema where
  /-- The literal `true` or `false`. -/
  | boolean (value : Bool)
  | object (keywords : Keywords Schema)
deriving Inhabited

/-- A place for a subschema, which may hold none. -/
abbrev Slot := Option Schema

namespace Schema

/-- The schema that says nothing. -/
def empty : Schema := .object {}

/-- What a schema says; a boolean schema says nothing. -/
def keywords : Schema → Keywords Schema
  | .boolean _ => {}
  | .object keywords => keywords

/-! ### Questions about one schema -/

/-- The value of a boolean schema. -/
def boolean? : Schema → Option Bool
  | .boolean value => some value
  | .object _ => none

/-- Whether the schema refers to another one. What else it says then does not count. -/
def isReference (s : Schema) : Bool := s.keywords.ref != ""

/-- Whether `type` is a name that is not empty or a list that is not empty. -/
def hasType (s : Schema) : Bool :=
  match s.keywords.type with
  | none => false
  | some (.single name) => name != ""
  | some (.list names) => !names.isEmpty

/-- The name in `type`, if it is one name. -/
def singleType? (s : Schema) : Option String :=
  match s.keywords.type with
  | some (.single name) => some name
  | _ => none

/-- The names in `type`, if it is a list. -/
def typeList (s : Schema) : List String :=
  match s.keywords.type with
  | some (.list names) => names
  | _ => []

/-- Whether `type` lists more than one name. -/
def hasMixedType (s : Schema) : Bool := 1 < s.typeList.length

/-- The entries of `properties`, in ascending order of names. -/
def properties (s : Schema) : NameMap Slot := s.keywords.properties

/-- The schema of a property. A property whose slot is empty has none. -/
def property? (s : Schema) (name : String) : Option Schema :=
  (s.properties.find? name).join

/-- The `const` of a property, if it is a string: the tag under which a union may tell the schema
from its siblings. -/
def tag? (s : Schema) (name : String) : Option String := do
  let property ← s.property? name
  let value ← property.keywords.const
  value.string?

/-- Whether `additionalProperties` is the literal `true`. -/
def isOpen (s : Schema) : Bool :=
  match s.keywords.additional with
  | some (.boolean value) => value
  | _ => false

/-- The schema in `additionalProperties`, if it is not a literal. -/
def additional? (s : Schema) : Option Schema :=
  match s.keywords.additional with
  | some (.object keywords) => some (.object keywords)
  | _ => none

/-- Whether the schema says something from which a type could be derived. -/
def isMeaningful (s : Schema) : Bool :=
  !s.properties.isEmpty || s.keywords.items.isSome || s.keywords.const.isSome ||
    !s.keywords.enum.isEmpty

end Schema

/-! ### Parts -/

/-- The direct parts of a schema, by keyword; empty slots are left out. -/
def Keywords.subschemas {α : Type} (keywords : Keywords α) : List α :=
  keywords.properties.filterMap Prod.snd ++ keywords.items.toList ++
    keywords.additional.toList ++ keywords.anyOf.reduceOption ++ keywords.oneOf.reduceOption ++
    keywords.allOf.reduceOption

namespace Keywords

variable {α : Type} {keywords : Keywords α} {s : α}

theorem mem_subschemas_iff :
    s ∈ keywords.subschemas ↔
      (∃ name, (name, some s) ∈ keywords.properties) ∨ keywords.items = some s ∨
        keywords.additional = some s ∨ some s ∈ keywords.anyOf ∨ some s ∈ keywords.oneOf ∨
        some s ∈ keywords.allOf := by
  have present : ∀ slots : List (Option α), s ∈ slots.reduceOption ↔ some s ∈ slots := by
    intro slots
    change s ∈ slots.filterMap id ↔ _
    simp
  simp [subschemas, present]

end Keywords

/-- A part is smaller than the whole. -/
theorem Keywords.sizeOf_lt_of_mem_subschemas {keywords : Keywords Schema} {s : Schema}
    (h : s ∈ keywords.subschemas) : sizeOf s < sizeOf keywords := by
  obtain ⟨type, properties, required, items, additional, anyOf, oneOf, allOf, const, enum, ref⟩ :=
    keywords
  have slot : ∀ {slots : List Slot}, some s ∈ slots → sizeOf s < sizeOf slots := by
    intro slots hs
    have := List.sizeOf_lt_of_mem hs
    simp only [Option.some.sizeOf_spec] at this
    omega
  simp only [Keywords.mk.sizeOf_spec]
  rcases mem_subschemas_iff.1 h with ⟨name, h⟩ | rfl | rfl | h | h | h
  · have := List.sizeOf_lt_of_mem h
    simp only [Prod.mk.sizeOf_spec, Option.some.sizeOf_spec] at this
    omega
  · simp only [Option.some.sizeOf_spec]
    omega
  · simp only [Option.some.sizeOf_spec]
    omega
  · have : sizeOf s < sizeOf anyOf := slot h
    omega
  · have : sizeOf s < sizeOf oneOf := slot h
    omega
  · have : sizeOf s < sizeOf allOf := slot h
    omega

namespace Schema

/-- What holds of a schema as soon as it holds of its direct parts holds of all schemas. -/
theorem inductionOn {motive : Schema → Prop} (s : Schema)
    (boolean : ∀ value, motive (.boolean value))
    (object : ∀ keywords : Keywords Schema,
      (∀ part ∈ keywords.subschemas, motive part) → motive (.object keywords)) :
    motive s :=
  match s with
  | .boolean value => boolean value
  | .object keywords =>
    object keywords fun part h =>
      have := Keywords.sizeOf_lt_of_mem_subschemas h
      inductionOn part boolean object
termination_by sizeOf s
decreasing_by
  simp only [Schema.object.sizeOf_spec]
  omega

/-- The names ascend in every map of properties, at every depth. -/
inductive Sorted : Schema → Prop where
  | boolean (value : Bool) : Sorted (.boolean value)
  | object {keywords : Keywords Schema} (names : NameMap.Sorted keywords.properties)
      (parts : ∀ part ∈ keywords.subschemas, Sorted part) : Sorted (.object keywords)

theorem Sorted.properties {s : Schema} (h : s.Sorted) : s.properties.Sorted := by
  cases h with
  | boolean value => exact List.Pairwise.nil
  | object names _ => exact names

theorem Sorted.part {s part : Schema} (h : s.Sorted) (hpart : part ∈ s.keywords.subschemas) :
    part.Sorted := by
  cases h with
  | boolean value => simp [keywords, Keywords.mem_subschemas_iff] at hpart
  | object _ parts => exact parts part hpart

/-- The names ascend in a map of slots and in all that the slots hold. -/
def SortedMap (entries : NameMap Slot) : Prop :=
  entries.Sorted ∧ ∀ entry ∈ entries, ∀ s ∈ entry.2, Sorted s

theorem sorted_empty : Sorted empty :=
  .object List.Pairwise.nil fun part h => by simp [Keywords.mem_subschemas_iff] at h

theorem sortedMap_nil : SortedMap [] := ⟨List.Pairwise.nil, by simp⟩

end Schema

/-! ### Documents -/

/-- The two groups in which a document may keep definitions. -/
inductive DefinitionGroup where
  | defs
  | definitions
deriving DecidableEq, Inhabited

/-- The keyword of a group of definitions. -/
def DefinitionGroup.keyword : DefinitionGroup → String
  | .defs => "$defs"
  | .definitions => "definitions"

/-- A schema document. -/
structure Document where
  root : Schema
  /-- The entries of `$defs`. -/
  defs : NameMap Slot := []
  /-- The entries of `definitions`. -/
  definitions : NameMap Slot := []
  sorted_root : root.Sorted
  sorted_defs : Schema.SortedMap defs := by exact Schema.sortedMap_nil
  sorted_definitions : Schema.SortedMap definitions := by exact Schema.sortedMap_nil

instance : Inhabited Document := ⟨{ root := .empty, sorted_root := Schema.sorted_empty }⟩

end SchemaAudit
