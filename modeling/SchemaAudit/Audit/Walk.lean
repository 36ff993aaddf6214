/-
**The walk through a document.**

A walk lists, in order, what an audit looks at: every schema that it enters, every union that it
meets and the property names of every schema that it leaves. It depends on the document alone, so
that settings decide only what is said about a visit.

A reference is not entered. Below a schema come its unions, its properties, its items and the
schema for additional properties; the branches of an `allOf` are not entered, nor are those of a
union that is nullable or consists of references.

* `Visit` — a stop of the walk;
* `Schema.visits` — the walk from one schema; `Document.roots`, `Document.visits` — that of a
  document.
-/

import SchemaAudit.Audit.Union

set_option relaxedAutoImplicit false
set_option autoImplicit false

namespace SchemaAudit

/-- A stop of the walk. -/
inductive Visit where
  /-- A schema is entered. -/
  | schema (place : Place) (schema : Schema)
  /-- A union is met. -/
  | union (union : Union)
  /-- A schema that declares properties of these names is left. -/
  | names (place : Place) (names : List String)
deriving Inhabited

/-- The walk through a union, given the walk through its branches. -/
def Union.visits (u : Union) (below : List Visit) : List Visit :=
  if u.branches.isEmpty then [] else .union u :: if u.isExamined then below else []

mutual

/-- The walk from a schema at a place, within the branches of `depth` unions. -/
def Schema.visits (place : Place) (depth : Nat) : Schema → List Visit
  | .boolean value => [.schema place (.boolean value), .names place []]
  | .object keywords@⟨_, properties, _, items, additional, anyOf, oneOf, _, _, _, ref⟩ =>
    if ref != "" then []
    else
      .schema place (.object keywords) ::
        (Union.visits ⟨place.step (.composition .anyOf), .anyOf, anyOf, depth⟩
            (branchVisits (place.step (.composition .anyOf)) (depth + 1) 0 anyOf) ++
          Union.visits ⟨place.step (.composition .oneOf), .oneOf, oneOf, depth⟩
            (branchVisits (place.step (.composition .oneOf)) (depth + 1) 0 oneOf) ++
          propertyVisits place depth properties ++
          slotVisits (place.step .items) depth items ++
          additionalVisits (place.step .additional) depth additional ++
          [.names place (NameMap.names properties)])

/-- The walk from the schema in a slot. -/
def slotVisits (place : Place) (depth : Nat) : Option Schema → List Visit
  | none => []
  | some s => s.visits place depth

/-- The walk from the schema for additional properties. A literal is not entered. -/
def additionalVisits (place : Place) (depth : Nat) : Option Schema → List Visit
  | some (.object keywords) => (Schema.object keywords).visits place depth
  | _ => []

/-- The walk from the branches of a union, of which the first one has the given index. -/
def branchVisits (place : Place) (depth index : Nat) : List (Option Schema) → List Visit
  | [] => []
  | slot :: rest =>
    slotVisits (place.step (.branch index)) depth slot ++
      branchVisits place depth (index + 1) rest

/-- The walk from the properties of a schema. -/
def propertyVisits (place : Place) (depth : Nat) : List (String × Option Schema) → List Visit
  | [] => []
  | (name, slot) :: rest =>
    slotVisits (place.step (.property name)) depth slot ++ propertyVisits place depth rest

end

/-- The definitions of a group that are there. -/
def DefinitionGroup.roots (group : DefinitionGroup) (entries : NameMap Slot) :
    List (Origin × Schema) :=
  entries.filterMap fun entry => entry.2.map fun s => (.definition group entry.1, s)

/-- The schemas from which a document is walked: its root and its definitions. -/
def Document.roots (d : Document) : List (Origin × Schema) :=
  (.document, d.root) ::
    (DefinitionGroup.defs.roots d.defs ++ DefinitionGroup.definitions.roots d.definitions)

/-- The walk through a document. -/
def Document.visits (d : Document) : List Visit :=
  d.roots.flatMap fun root => root.2.visits (.origin root.1) 0

end SchemaAudit
