/-
**What an audit reads.**

Of much that a schema says the rules read only whether it is there, or whether it is a string.  This
module says what may change in a document, in any number of places and at any depth, so that no
rule can tell: what is required, the values of an enumeration and of a constant that is no string,
which literal a schema is, and all of the branches that are not looked into.

Main definitions:

* `Skipped` — branches that are not looked into, although there are some;
* `Schema.SameFootprint`, `Document.SameFootprint` — **schemas and documents that differ only where
  no rule reads**.

Main results:

* `Site.SameFootprint.lockstep` — the walks through such schemas go in lockstep, and the same is
  found at each stop;
* `Document.audit_footprint` — **the reports on such documents are the same**.
-/

import SchemaAudit.Proofs.BranchOrder
import SchemaAudit.Proofs.Reach

set_option relaxedAutoImplicit false
set_option autoImplicit false

namespace SchemaAudit

/-! ### Changes that no rule sees -/

/-- Branches that are not looked into, although there are some: a nullable pair, or references and
empty slots only. -/
def Skipped (branches : List Slot) : Prop :=
  branches ≠ [] ∧ (NullablePair branches ∨ ∀ s, some s ∈ branches → s.isReference = true)

/-- Neither of two lists of branches is looked into. -/
def BothSkipped (branches branches' : List Slot) : Prop := Skipped branches ∧ Skipped branches'

/-- **Two schemas differ only where no rule reads**: in which literal they are, unless it allows
additional properties; in what is required; in the values of an enumeration that is there and of a
constant that is no string; in all branches of an `allOf` that has some; in all branches of a union
that is not looked into; and, at any depth, in the same way in their parts. -/
inductive Schema.SameFootprint : Schema → Schema → Prop
  | boolean (value value' : Bool) : SameFootprint (.boolean value) (.boolean value')
  | object {k k' : Keywords Schema} (type : k.type = k'.type) (ref : k.ref = k'.ref)
      (properties :
        List.Forall₂ (NameMap.EntryRel (Option.Rel SameFootprint)) k.properties k'.properties)
      (items : Option.Rel SameFootprint k.items k'.items)
      (additional : Option.Rel SameFootprint k.additional k'.additional)
      (opened : k.additional = some (.boolean true) ↔ k'.additional = some (.boolean true))
      (anyOf : ¬BothSkipped k.anyOf k'.anyOf →
        List.Forall₂ (Option.Rel SameFootprint) k.anyOf k'.anyOf)
      (oneOf : ¬BothSkipped k.oneOf k'.oneOf →
        List.Forall₂ (Option.Rel SameFootprint) k.oneOf k'.oneOf)
      (allOf : k.allOf = [] ↔ k'.allOf = [])
      (const : k.const.map Json.Value.string? = k'.const.map Json.Value.string?)
      (enum : k.enum = [] ↔ k'.enum = []) :
      SameFootprint (.object k) (.object k')

/-- Two documents differ only where no rule reads. -/
structure Document.SameFootprint (d e : Document) : Prop where
  root : d.root.SameFootprint e.root
  defs : List.Forall₂ (NameMap.EntryRel (Option.Rel Schema.SameFootprint)) d.defs e.defs
  definitions :
    List.Forall₂ (NameMap.EntryRel (Option.Rel Schema.SameFootprint)) d.definitions e.definitions

/-! ### Branches -/

theorem Skipped.isExamined_eq {u : Union} (h : Skipped u.branches) : u.isExamined = false := by
  rw [Bool.eq_false_iff, ne_eq, Union.isExamined_iff]
  rintro ⟨-, hpair, hreferences⟩
  exact h.2.elim hpair hreferences

/-! ### What the changes leave as it is -/

namespace Schema.SameFootprint

variable {s t : Schema} (h : s.SameFootprint t)

include h

theorem keywords_eq :
    s.keywords.type = t.keywords.type ∧ s.keywords.ref = t.keywords.ref ∧
      s.keywords.const.map Json.Value.string? = t.keywords.const.map Json.Value.string? ∧
      s.keywords.enum.isEmpty = t.keywords.enum.isEmpty := by
  cases h with
  | boolean value value' => exact ⟨rfl, rfl, rfl, rfl⟩
  | object type ref _ _ _ _ _ _ _ const enum =>
      refine ⟨type, ref, const, ?_⟩
      rw [Bool.eq_iff_iff, List.isEmpty_iff, List.isEmpty_iff]
      exact enum

theorem properties_rel :
    List.Forall₂ (NameMap.EntryRel (Option.Rel Schema.SameFootprint)) s.properties
      t.properties := by
  cases h with
  | boolean value value' => exact .nil
  | object _ _ properties => exact properties

theorem items_rel : Option.Rel Schema.SameFootprint s.keywords.items t.keywords.items := by
  cases h with
  | boolean value value' => exact .none
  | object _ _ _ items => exact items

/-- The branches of a union are related slot by slot unless neither union is looked into. -/
theorem branches_rel {keyword : Composition} (hkeyword : keyword ≠ .allOf) :
    ¬BothSkipped (s.branches keyword) (t.branches keyword) →
      List.Forall₂ (Option.Rel Schema.SameFootprint) (s.branches keyword) (t.branches keyword) := by
  cases h with
  | boolean value value' => exact fun _ => by cases keyword <;> exact .nil
  | object _ _ _ _ _ _ anyOf oneOf =>
      cases keyword with
      | anyOf => exact anyOf
      | oneOf => exact oneOf
      | allOf => exact absurd rfl hkeyword

theorem isEmpty_branches_eq (keyword : Composition) :
    (s.branches keyword).isEmpty = (t.branches keyword).isEmpty := by
  by_cases hkeyword : keyword = .allOf
  · subst hkeyword
    cases h with
    | boolean value value' => rfl
    | object _ _ _ _ _ _ _ _ allOf =>
        rw [Bool.eq_iff_iff, List.isEmpty_iff, List.isEmpty_iff]
        exact allOf
  · by_cases hskipped : BothSkipped (s.branches keyword) (t.branches keyword)
    · rw [List.isEmpty_eq_false_iff.2 hskipped.1.1, List.isEmpty_eq_false_iff.2 hskipped.2.1]
    · exact isEmpty_eq_of_length_eq (h.branches_rel hkeyword hskipped).length_eq

theorem isReference_eq : s.isReference = t.isReference := by
  obtain ⟨-, ref, -⟩ := h.keywords_eq
  rw [isReference, isReference, ref]

theorem hasType_eq : s.hasType = t.hasType := by
  obtain ⟨type, -⟩ := h.keywords_eq
  rw [hasType, hasType, type]

theorem typeList_eq : s.typeList = t.typeList := by
  obtain ⟨type, -⟩ := h.keywords_eq
  rw [typeList, typeList, type]

theorem isOpen_eq : s.isOpen = t.isOpen := by
  have open_iff : ∀ s : Schema,
      s.isOpen = true ↔ s.keywords.additional = some (.boolean true) := by
    intro s
    rw [isOpen]
    rcases s.keywords.additional with _ | value | keywords <;> simp
  rw [Bool.eq_iff_iff, open_iff, open_iff]
  cases h with
  | boolean value value' => rfl
  | object _ _ _ _ _ opened => exact opened

theorem additional?_rel :
    Option.Rel Schema.SameFootprint s.additional? t.additional? := by
  cases h with
  | boolean value value' => exact .none
  | @object k k' _ _ _ _ additional =>
      rw [additional?, additional?, keywords, keywords]
      generalize k.additional = slot at additional ⊢
      generalize k'.additional = slot' at additional ⊢
      cases additional with
      | none => exact .none
      | some hparts =>
          cases hparts with
          | boolean value value' => exact .none
          | object type ref properties items additional opened anyOf oneOf allOf const enum =>
              exact .some (.object type ref properties items additional opened anyOf oneOf allOf
                const enum)

theorem isMeaningful_eq : s.isMeaningful = t.isMeaningful := by
  obtain ⟨-, -, const, enum⟩ := h.keywords_eq
  have constant : s.keywords.const.isSome = t.keywords.const.isSome := by
    simpa using congrArg Option.isSome const
  rw [isMeaningful, isMeaningful, isEmpty_eq_of_length_eq h.properties_rel.length_eq,
    isSome_eq_of_rel h.items_rel, constant, enum]

theorem tagState_eq (field : String) : s.tagState field = t.tagState field := by
  have hslot : Option.Rel Schema.SameFootprint (s.property? field) (t.property? field) :=
    NameMap.join_find?_rel h.properties_rel field
  rw [tagState, tagState]
  generalize s.property? field = slot at hslot ⊢
  generalize t.property? field = slot' at hslot ⊢
  cases hslot with
  | none => rfl
  | some hproperty =>
      obtain ⟨-, -, const, -⟩ := hproperty.keywords_eq
      rw [Option.map_some, Option.map_some, const]

/-- A changed branch is the same for a verdict. -/
theorem sameRole : s.SameRole t := by
  obtain ⟨type, ref, -, -⟩ := h.keywords_eq
  refine ⟨h.isReference_eq, ?_, ?_, ?_, fun _ => h.tagState_eq⟩
  · rw [singleType?, singleType?, type]
  · rw [h.hasType_eq, h.isReference_eq]
  · rw [isReferenceSide, isReferenceSide, h.isReference_eq, ref, property?, property?,
      isSome_eq_of_rel (NameMap.join_find?_rel h.properties_rel referenceProperty)]

/-- What the scale profile has to say about a schema does not show the changes. -/
theorem scaleFindings_eq (place : Place) : scaleFindings place s = scaleFindings place t := by
  have any : s.keywords.anyOf.isEmpty = t.keywords.anyOf.isEmpty := h.isEmpty_branches_eq .anyOf
  have one : s.keywords.oneOf.isEmpty = t.keywords.oneOf.isEmpty := h.isEmpty_branches_eq .oneOf
  have all : s.keywords.allOf.isEmpty = t.keywords.allOf.isEmpty := h.isEmpty_branches_eq .allOf
  simp only [scaleFindings, compositionFindings, hasMixedType, any, one, all, h.isOpen_eq,
    h.hasType_eq, h.isMeaningful_eq, h.typeList_eq]

end Schema.SameFootprint

/-! ### Unions -/

/-- Two unions in the same place whose branches differ only where no rule reads. -/
structure Union.SameFootprint (u u' : Union) : Prop where
  place : u.place = u'.place
  keyword : u.keyword = u'.keyword
  depth : u.depth = u'.depth
  branches : ¬BothSkipped u.branches u'.branches →
    List.Forall₂ (Option.Rel Schema.SameFootprint) u.branches u'.branches

/-- Related branches have related inline branches, at the same indices. -/
theorem inlineFrom_rel {branches branches' : List Slot}
    (h : List.Forall₂ (Option.Rel Schema.SameFootprint) branches branches') (index : Nat) :
    List.Forall₂ (fun v w => v.1 = w.1 ∧ v.2.SameFootprint w.2) (inlineFrom index branches)
      (inlineFrom index branches') := by
  induction h generalizing index with
  | nil => exact .nil
  | cons hslot _ ih =>
      cases hslot with
      | none => exact ih (index + 1)
      | some hst =>
          rw [inlineFrom, inlineFrom, hst.isReference_eq]
          split
          · exact ih (index + 1)
          · exact .cons ⟨rfl, hst⟩ (ih (index + 1))

namespace Union.SameFootprint

variable {u u' : Union} (h : u.SameFootprint u')

include h

/-- Unions that are looked into are judged alike. -/
theorem judgedAlike (hskipped : ¬BothSkipped u.branches u'.branches) : u.JudgedAlike u' := by
  refine judgedAlike_of_sameRole h.place h.keyword ((h.branches hskipped).imp ?_)
  rintro _ _ (hst | -)
  · exact .some hst.sameRole
  · exact .none

/-- What is wrong with a union does not show the changes. -/
theorem findings_eq (config : Config) : u.findings config = u'.findings config := by
  by_cases hskipped : BothSkipped u.branches u'.branches
  · rw [findings_of_not_isExamined hskipped.1.isExamined_eq,
      findings_of_not_isExamined hskipped.2.isExamined_eq]
  · have related := h.branches hskipped
    have judged := h.judgedAlike hskipped
    have openings : u.openFindings = u'.openFindings := by
      rw [openFindings, openFindings, h.place]
      refine flatMap_eq_of_forall₂ (inlineFrom_rel related 0) ?_
      rintro ⟨index, s⟩ - ⟨_, t⟩ ⟨rfl, hst⟩
      rw [hst.isOpen_eq]
    rw [findings, findings, judged.1, judged.2, related.length_eq, h.place, h.depth, openings]

end Union.SameFootprint

/-! ### Walks -/

/-- Two sites in the same place whose schemas differ only where no rule reads. -/
structure Site.SameFootprint (x y : Site) : Prop where
  place : x.place = y.place
  depth : x.depth = y.depth
  schema : x.schema.SameFootprint y.schema

theorem zipIdx_rel {R : Slot → Slot → Prop} {branches branches' : List Slot}
    (h : List.Forall₂ R branches branches') (index : Nat) :
    List.Forall₂ (fun a b => R a.1 b.1 ∧ a.2 = b.2) (branches.zipIdx index)
      (branches'.zipIdx index) := by
  induction h generalizing index with
  | nil => exact .nil
  | cons hslot _ ih => exact .cons ⟨hslot, rfl⟩ (ih (index + 1))

/-- A walk goes on to related branches. -/
theorem Union.SameFootprint.entered {u u' : Union} (h : u.SameFootprint u') :
    List.Forall₂ Site.SameFootprint u.entered u'.entered := by
  by_cases hskipped : BothSkipped u.branches u'.branches
  · rw [Union.entered, Union.entered, hskipped.1.isExamined_eq, hskipped.2.isExamined_eq]
    exact .nil
  · rw [Union.entered, Union.entered, (h.judgedAlike hskipped).1]
    split
    · refine List.rel_filterMap ?_ (zipIdx_rel (h.branches hskipped) 0)
      rintro ⟨_, index⟩ ⟨_, _⟩ ⟨hst | -, rfl⟩
      · exact .some ⟨congrArg (Place.step · (.branch index)) h.place, congrArg (· + 1) h.depth, hst⟩
      · exact .none
    · exact .nil

namespace Site.SameFootprint

variable {x y : Site} (h : x.SameFootprint y)

include h

theorem union {keyword : Composition} (hkeyword : keyword ≠ .allOf) :
    (x.union keyword).SameFootprint (y.union keyword) where
  place := congrArg (Place.step · (.composition keyword)) h.place
  keyword := rfl
  depth := h.depth
  branches := h.schema.branches_rel hkeyword

theorem part (step : Step) {s t : Schema} (hst : s.SameFootprint t) :
    (x.part step s).SameFootprint (y.part step t) :=
  ⟨congrArg (Place.step · step) h.place, h.depth, hst⟩

/-- **The walks through two schemas that differ only where no rule reads go in lockstep**, and the
same is found at each stop. -/
theorem lockstep (config : Config) :
    x.Lockstep Site.SameFootprint (Visit.findings config) (Visit.findings config) y where
  schema := by
    rw [Visit.findings, Visit.findings, h.place, h.schema.scaleFindings_eq]
  unions keyword hkeyword := by
    rw [unionStops, unionStops, h.schema.isEmpty_branches_eq keyword]
    split
    · rfl
    · rw [List.flatMap_singleton, List.flatMap_singleton, Visit.findings, Visit.findings,
        (h.union hkeyword).findings_eq]
  branches keyword hkeyword := (h.union hkeyword).entered
  parts := List.rel_append
    (Site.properties_rel (fun step _ _ hst => h.part step hst) h.schema.properties_rel)
    (Site.others_rel (fun step _ _ hst => h.part step hst) h.schema.items_rel
      h.schema.additional?_rel)
  names := by
    rw [Visit.findings, Visit.findings, h.place, NameMap.names_eq_of_rel h.schema.properties_rel]

end Site.SameFootprint

/-! ### Documents -/

namespace Document

variable {d e : Document}

theorem audit_eq_of_sameFootprint (config : Config) (h : d.SameFootprint e) :
    d.audit config = e.audit config := by
  have sites : List.Forall₂ Site.SameFootprint d.sites e.sites :=
    sites_rel h.root h.defs h.definitions fun _ _ _ hst => ⟨rfl, rfl, hst⟩
  have findings : d.findings config = e.findings config :=
    flatMap_visits_eq (fun hxy => hxy.schema.isReference_eq) (fun hxy _ => hxy.lockstep config)
      sites
  rw [audit, audit, findings]

/-- **The footprint of an audit**: however often a document is changed where no rule reads, the
report stays the same. -/
theorem audit_footprint (config : Config) (h : Relation.EqvGen SameFootprint d e) :
    d.audit config = e.audit config := by
  induction h with
  | rel d e h => exact audit_eq_of_sameFootprint config h
  | refl d => rfl
  | symm d e _ ih => exact ih.symm
  | trans d e f _ _ first second => exact first.trans second

end Document

/-! ### An example -/

/-- A schema is sorted if its names are and its parts have no parts. -/
theorem Schema.sorted_of_flat {keywords : Keywords Schema}
    (names : NameMap.Sorted keywords.properties)
    (flat : ∀ part ∈ keywords.subschemas,
      part.keywords.properties = [] ∧ part.keywords.subschemas = []) :
    (Schema.object keywords).Sorted := by
  refine .object names fun part hpart => ?_
  obtain ⟨properties, subschemas⟩ := flat part hpart
  cases part with
  | boolean value => exact .boolean value
  | object k =>
      rw [Schema.keywords] at properties subschemas
      refine .object (properties ▸ List.Pairwise.nil) ?_
      simp [subschemas]

namespace Document

/-- A schema with a literal, a constant, an enumeration, an `allOf` and a union that is not looked
into, in one of two versions. -/
def version (second : Bool) : Document where
  root := .object
    { properties := [("flag", some (.boolean (!second))),
        ("note", some (.object
          { const := some (if second then .null else .bool true)
            enum := if second then [.null] else [.bool true, .null] }))]
      required := if second then [] else ["note"]
      anyOf :=
        if second then [none, some (.object { ref := "#/x" })]
        else [some (.object { type := some (.single "string") }),
          some (.object { type := some (.single "null") })]
      allOf := if second then [some (.boolean true)] else [none, some .empty] }
  sorted_root := by
    have names : "flag" < "note" := by decide
    refine Schema.sorted_of_flat (List.pairwise_pair.2 names) ?_
    cases second <;> simp [Keywords.subschemas, Schema.keywords, Schema.empty, List.reduceOption]

theorem sameFootprint_version : (version false).SameFootprint (version true) where
  root := by
    refine .object rfl rfl (.cons (.intro _ (.some (.boolean _ _)))
      (.cons (.intro _ (.some ?_)) .nil)) .none .none (by simp) (fun h => absurd ?_ h)
      (fun _ => .nil) (by simp) rfl (by simp)
    · exact .object rfl rfl .nil .none .none (by simp) (fun _ => .nil) (fun _ => .nil) (by simp) rfl
        (by simp)
    · simp [BothSkipped, Skipped, NullablePair, Schema.singleType?, Schema.hasType,
        Schema.isReference, Schema.keywords]
  defs := .nil
  definitions := .nil

/-- Both versions have the same four issues. -/
theorem audit_footprint_version :
    (version false).SameFootprint (version true) ∧
      (version false).audit { profile := .scale } = (version true).audit { profile := .scale } ∧
      ((version true).audit { profile := .scale }).issues.length = 4 :=
  ⟨sameFootprint_version, audit_footprint _ (.rel _ _ sameFootprint_version), by decide⟩

end Document

end SchemaAudit
