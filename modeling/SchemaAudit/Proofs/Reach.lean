/-
**What a walk reaches.**

The rules by which a walk goes from schema to schema, stated on their own: `Document.Reaches` does
not mention the walk, and `NullablePair` and `Examined` describe lists of branches by what is in
them.  This module proves that the walk stops exactly at what the rules reach.

Main definitions:

* `NullablePair`, `Examined` — lists of branches that only say that something may be absent, and
  lists whose branches are looked into;
* `Document.Reaches` — **the sites that the rules reach**;
* `Document.Meets`, `Document.Examines` — the unions of reached schemas, and those among them whose
  branches are looked into.

Main results:

* `Union.isExamined_iff` — the test of a union decides `Examined`;
* `Document.mem_visits_iff` — **the stops of a walk are the stops of the reached schemas that are
  no references**;
* `Document.mem_unions_iff_meets` — the unions of a walk are those of reached schemas.
-/

import SchemaAudit.Proofs.Walk

set_option relaxedAutoImplicit false
set_option autoImplicit false

namespace SchemaAudit

/-! ### Lists of branches -/

/-- Two branches, one of which has the type `null` while the other one has some type or is a
reference. -/
def NullablePair (branches : List Slot) : Prop :=
  branches.length = 2 ∧ (∃ s, some s ∈ branches ∧ s.singleType? = some "null") ∧
    ∃ s, some s ∈ branches ∧ s.singleType? ≠ some "null" ∧
      (s.hasType = true ∨ s.isReference = true)

/-- Branches that are looked into: they are no nullable pair, and not all that are there are
references. -/
def Examined (branches : List Slot) : Prop :=
  branches ≠ [] ∧ ¬NullablePair branches ∧
    ¬∀ s, some s ∈ branches → s.isReference = true

theorem isNullable_iff {branches : List Slot} :
    isNullable branches = true ↔ NullablePair branches := by
  simp [isNullable, NullablePair, List.reduceOption_mem_iff, and_assoc]

theorem isReferencesOnly_iff {branches : List Slot} :
    isReferencesOnly branches = true ↔ ∀ s, some s ∈ branches → s.isReference = true := by
  simp [isReferencesOnly, List.reduceOption_mem_iff]

/-- The test of a union decides whether its branches are looked into. -/
theorem Union.isExamined_iff {u : Union} : u.isExamined = true ↔ Examined u.branches := by
  rw [isExamined, Bool.and_eq_true, Bool.not_eq_true', Bool.not_eq_true',
    Bool.eq_false_iff, Bool.eq_false_iff, ne_eq, ne_eq, isNullable_iff, isReferencesOnly_iff]
  constructor
  · rintro ⟨hnullable, hreferences⟩
    refine ⟨?_, hnullable, hreferences⟩
    rintro hempty
    exact hreferences fun s hs => by simp [hempty] at hs
  · exact fun h => h.2

/-! ### Reached sites -/

/-- **The sites that a walk through a document reaches**: the root and the definitions that are
there, and from a schema that is no reference its properties, its items, its schema for additional
properties and, of a union whose branches are looked into, the branches that are no references. -/
inductive Document.Reaches (d : Document) : Site → Prop
  | root : d.Reaches ⟨.origin .document, 0, d.root⟩
  | definition {group : DefinitionGroup} {name : String} {s : Schema} :
      (name, some s) ∈ d.entries group → d.Reaches ⟨.origin (.definition group name), 0, s⟩
  | property {x : Site} {name : String} {s : Schema} : d.Reaches x →
      x.schema.isReference = false → (name, some s) ∈ x.schema.properties →
      d.Reaches (x.part (.property name) s)
  | items {x : Site} {s : Schema} : d.Reaches x → x.schema.isReference = false →
      x.schema.keywords.items = some s → d.Reaches (x.part .items s)
  | additional {x : Site} {s : Schema} : d.Reaches x → x.schema.isReference = false →
      x.schema.additional? = some s → d.Reaches (x.part .additional s)
  | branch {x : Site} {keyword : Composition} {index : Nat} {s : Schema} : d.Reaches x →
      x.schema.isReference = false → keyword ≠ .allOf → Examined (x.schema.branches keyword) →
      (x.schema.branches keyword)[index]? = some (some s) → s.isReference = false →
      d.Reaches ((x.union keyword).site index s)

/-- The unions of reached schemas: an `anyOf` or `oneOf` that lists branches. -/
inductive Document.Meets (d : Document) : Union → Prop
  | intro {x : Site} {keyword : Composition} : d.Reaches x → x.schema.isReference = false →
      keyword ≠ .allOf → x.schema.branches keyword ≠ [] → d.Meets (x.union keyword)

/-- The unions of reached schemas whose branches are looked into. -/
def Document.Examines (d : Document) (u : Union) : Prop := d.Meets u ∧ Examined u.branches

namespace Document

variable {d : Document}

theorem reaches_of_mem_roots {root : Origin × Schema} (h : root ∈ d.roots) :
    d.Reaches ⟨.origin root.1, 0, root.2⟩ := by
  rcases mem_roots_iff.1 h with rfl | ⟨group, name, s, hs, rfl⟩
  · exact .root
  · exact .definition hs

/-- What a walk goes on to is reached, unless it is a reference. -/
theorem Reaches.of_mem_entered {x y : Site} (hx : d.Reaches x) (href : x.schema.isReference = false)
    (hy : y ∈ x.entered) (hyref : y.schema.isReference = false) : d.Reaches y := by
  rcases Site.mem_entered_iff.1 hy with ⟨keyword, hkeyword, hy⟩ | hy | hy
  · obtain ⟨hexamined, index, s, hs, rfl⟩ := Union.mem_entered_iff.1 hy
    exact .branch hx href hkeyword (Union.isExamined_iff.1 hexamined) hs hyref
  · obtain ⟨name, s, hs, rfl⟩ := Site.mem_properties_iff.1 hy
    exact .property hx href hs
  · rcases Site.mem_others_iff.1 hy with ⟨s, hs, rfl⟩ | ⟨s, hs, rfl⟩
    · exact .items hx href hs
    · exact .additional hx href hs

/-- **Induction along the ways by which schemas are reached**: what holds at the roots, and goes
over from a schema that is entered to those that the walk goes on to, holds wherever the rules
lead. -/
theorem Reaches.inductionOn {motive : Site → Prop} {x : Site} (h : d.Reaches x)
    (roots : ∀ root ∈ d.roots, motive ⟨.origin root.1, 0, root.2⟩)
    (entered : ∀ {x y : Site}, d.Reaches x → x.schema.isReference = false → y ∈ x.entered →
      motive x → motive y) : motive x := by
  induction h with
  | root => exact roots (.document, d.root) (mem_roots_iff.2 (.inl rfl))
  | definition hs => exact roots (_, _) (mem_roots_iff.2 (.inr ⟨_, _, _, hs, rfl⟩))
  | property hx href hs ih =>
      refine entered hx href (Site.mem_entered_iff.2 (.inr (.inl ?_))) ih
      exact Site.mem_properties_iff.2 ⟨_, _, hs, rfl⟩
  | items hx href hs ih =>
      refine entered hx href (Site.mem_entered_iff.2 (.inr (.inr ?_))) ih
      exact Site.mem_others_iff.2 (.inl ⟨_, hs, rfl⟩)
  | additional hx href hs ih =>
      refine entered hx href (Site.mem_entered_iff.2 (.inr (.inr ?_))) ih
      exact Site.mem_others_iff.2 (.inr ⟨_, hs, rfl⟩)
  | @branch x keyword index s hx href hkeyword hexamined hs _ ih =>
      refine entered hx href (Site.mem_entered_iff.2 (.inl ⟨keyword, hkeyword, ?_⟩)) ih
      exact Union.mem_entered_iff.2 ⟨Union.isExamined_iff.2 hexamined, index, s, hs, rfl⟩

theorem Reaches.visits_subset {x : Site} (h : d.Reaches x) : x.visits ⊆ d.visits := by
  refine h.inductionOn (motive := fun x => x.visits ⊆ d.visits) (fun root hroot v hv => ?_) ?_
  · exact List.mem_flatMap.2 ⟨root, hroot, hv⟩
  · intro x y _ href hy ih
    exact List.Subset.trans (Site.visits_subset_of_mem_entered href hy) ih

/-- What is reached in a document is sorted. -/
theorem Reaches.sorted {x : Site} (h : d.Reaches x) : x.schema.Sorted := by
  refine h.inductionOn (motive := fun x => x.schema.Sorted) (fun root => sorted_of_mem_roots) ?_
  exact fun _ _ hy hx => Site.sorted_of_mem_entered hx hy

/-- Every stop of a walk that starts at a reached site belongs to a reached schema. -/
theorem exists_of_mem_visits {x : Site} (hx : d.Reaches x) {v : Visit} (hv : v ∈ x.visits) :
    ∃ y, d.Reaches y ∧ y.schema.isReference = false ∧ v ∈ y.stops := by
  induction x using Site.inductionOn with
  | step x ih =>
      cases href : x.schema.isReference with
      | true => simp [Site.visits_of_isReference href] at hv
      | false =>
          rcases List.mem_append.1 ((Site.visits_perm href).mem_iff.1 hv) with hv | hv
          · exact ⟨x, hx, href, hv⟩
          · obtain ⟨y, hy, hv⟩ := List.mem_flatMap.1 hv
            cases hyref : y.schema.isReference with
            | true => simp [Site.visits_of_isReference hyref] at hv
            | false => exact ih y hy (hx.of_mem_entered href hy hyref) hv

/-- **The walk stops exactly at what is reached.** -/
theorem mem_visits_iff {v : Visit} :
    v ∈ d.visits ↔ ∃ x, d.Reaches x ∧ x.schema.isReference = false ∧ v ∈ x.stops := by
  constructor
  · intro hv
    obtain ⟨root, hroot, hv⟩ := List.mem_flatMap.1 hv
    exact exists_of_mem_visits (x := ⟨.origin root.1, 0, root.2⟩) (reaches_of_mem_roots hroot) hv
  · rintro ⟨x, hx, href, hv⟩
    exact hx.visits_subset ((Site.visits_perm href).mem_iff.2 (List.mem_append_left _ hv))

/-- A schema is entered when it is reached and no reference. -/
theorem mem_visits_schema_iff {place : Place} {s : Schema} :
    .schema place s ∈ d.visits ↔
      ∃ depth, d.Reaches ⟨place, depth, s⟩ ∧ s.isReference = false := by
  rw [mem_visits_iff]
  constructor
  · rintro ⟨⟨place', depth, s'⟩, hx, href, hv⟩
    simp only [Site.stops, Site.unionStops, List.cons_append, List.nil_append, List.mem_cons,
      List.mem_append, Visit.schema.injEq, reduceCtorEq, false_or] at hv
    rcases hv with ⟨rfl, rfl⟩ | hv | hv
    · exact ⟨depth, hx, href⟩
    · split at hv <;> simp at hv
    · split at hv <;> simp at hv
  · rintro ⟨depth, hx, href⟩
    exact ⟨_, hx, href, by simp [Site.stops]⟩

/-- The names that are checked are those of the properties of schemas that are entered. -/
theorem mem_visits_names_iff {place : Place} {names : List String} :
    .names place names ∈ d.visits ↔
      ∃ x, d.Reaches x ∧ x.schema.isReference = false ∧ x.place = place ∧
        x.schema.properties.names = names := by
  rw [mem_visits_iff]
  refine exists_congr fun x => and_congr_right fun _ => and_congr_right fun _ => ?_
  simp only [Site.stops, Site.unionStops, List.cons_append, List.nil_append, List.mem_cons,
    List.mem_append, Visit.names.injEq, reduceCtorEq, false_or]
  constructor
  · rintro (⟨rfl, rfl⟩ | h | h)
    · exact ⟨rfl, rfl⟩
    · split at h <;> simp at h
    · split at h <;> simp at h
  · rintro ⟨rfl, rfl⟩
    exact .inl ⟨rfl, rfl⟩

/-- **The unions of a walk are those of reached schemas.** -/
theorem mem_unions_iff_meets {u : Union} : u ∈ d.unions ↔ d.Meets u := by
  have stop : ∀ (x : Site) (keyword : Composition),
      .union u ∈ x.unionStops keyword ↔ x.schema.branches keyword ≠ [] ∧ u = x.union keyword := by
    intro x keyword
    rw [Site.unionStops]
    split <;> simp_all
  rw [mem_unions_iff, mem_visits_iff]
  constructor
  · rintro ⟨x, hx, href, hv⟩
    simp only [Site.stops, List.cons_append, List.nil_append, List.mem_cons, List.mem_append,
      reduceCtorEq, false_or, stop] at hv
    rcases hv with ⟨hne, rfl⟩ | ⟨hne, rfl⟩
    · exact .intro hx href (by simp) hne
    · exact .intro hx href (by simp) hne
  · rintro @⟨x, keyword, hx, href, hkeyword, hne⟩
    refine ⟨x, hx, href, List.mem_append_right _ (List.mem_append.2 ?_)⟩
    cases keyword with
    | anyOf => exact .inl ((stop x .anyOf).2 ⟨hne, rfl⟩)
    | oneOf => exact .inr ((stop x .oneOf).2 ⟨hne, rfl⟩)
    | allOf => exact absurd rfl hkeyword

end Document

end SchemaAudit
