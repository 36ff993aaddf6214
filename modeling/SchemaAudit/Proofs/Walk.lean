/-
**The walk, schema by schema.**

`Schema.visits` lists the stops of a walk in one pass over the keywords of a schema.  This module
takes the walk apart along the structure of the document: a schema that is entered makes a few
stops of its own, and everything else happens in the schemas that it leads on to.  From this follows
that no place is visited twice in the same way, which is what allows us to speak of *the* findings
of a union.

Main definitions:

* `Site` — a schema in its place, within the branches of so many unions;
* `Site.entered`, `Union.entered` — the schemas that a walk goes on to from a schema, and from the
  branches of a union;
* `Site.stops` — the stops that belong to a schema itself;
* `Place.Under`, `Place.Apart` — places below a place, and places without a common place below;
* `Document.sites`, `Document.unions` — where a document is entered, and the unions it meets.

Main results:

* `Site.visits_eq`, `Site.visits_perm` — **the walk from a schema is its own stops and the walks
  from the schemas it leads on to**, in order and up to order;
* `Document.nodup_labels` — no place is visited twice in the same way;
* `Document.nodup_places_unions` — no two unions stand in the same place.
-/

import Mathlib
import SchemaAudit.Audit.Check

set_option relaxedAutoImplicit false
set_option autoImplicit false

namespace SchemaAudit

/-! ### Places below a place -/

namespace Place

/-- A place and everything that is reached from it by further steps. -/
inductive Under (p : Place) : Place → Prop
  | refl : Under p p
  | step {q : Place} (s : Step) : Under p q → Under p (q.step s)

/-- The number of steps to a place. -/
def length : Place → Nat
  | .origin _ => 0
  | .step parent _ => parent.length + 1

theorem Under.trans {p q r : Place} (h : p.Under q) (h' : q.Under r) : p.Under r := by
  induction h' with
  | refl => exact h
  | step s _ ih => exact ih.step s

theorem Under.length_le {p q : Place} (h : p.Under q) : p.length ≤ q.length := by
  induction h with
  | refl => exact Nat.le_refl _
  | step s _ ih => exact Nat.le_succ_of_le ih

theorem Under.start_eq {p q : Place} (h : p.Under q) : q.start = p.start := by
  induction h with
  | refl => rfl
  | step s _ ih => exact ih

theorem not_under_of_length_lt {p q : Place} (h : q.length < p.length) : ¬p.Under q :=
  fun h' => absurd h'.length_le (Nat.not_le_of_lt h)

theorem under_step (p : Place) (s : Step) : p.Under (p.step s) := Under.refl.step s

theorem not_step_under (p : Place) (s : Step) : ¬(p.step s).Under p :=
  not_under_of_length_lt (Nat.lt_succ_self _)

theorem ne_step (p : Place) (s : Step) : p ≠ p.step s :=
  fun h => not_step_under p s (h ▸ .refl)

/-- Two places below which there is no common place. -/
def Apart (p q : Place) : Prop := ∀ r, p.Under r → ¬q.Under r

theorem Apart.mono {p q p' q' : Place} (h : p.Apart q) (hp : p.Under p') (hq : q.Under q') :
    p'.Apart q' :=
  fun r hr hr' => h r (hp.trans hr) (hq.trans hr')

/-- Different steps from one place lead apart. -/
theorem apart_step {p : Place} {s t : Step} (hst : s ≠ t) : (p.step s).Apart (p.step t) := by
  intro r h h'
  induction h with
  | refl =>
      cases h' with
      | refl => exact hst rfl
      | step _ h' => exact not_step_under p t h'
  | step _ h ih =>
      cases h' with
      | refl => exact not_step_under p s h
      | step _ h' => exact ih h'

/-- Different origins are apart. -/
theorem apart_of_start_ne {p q : Place} (h : p.start ≠ q.start) : p.Apart q :=
  fun _ hr hr' => h (hr.start_eq.symm.trans hr'.start_eq)

end Place

/-! ### Sites -/

/-- A schema in its place, within the branches of `depth` unions. -/
structure Site where
  place : Place
  depth : Nat
  schema : Schema

/-- The branches that a schema lists under a keyword. -/
def Schema.branches (s : Schema) : Composition → List Slot
  | .anyOf => s.keywords.anyOf
  | .oneOf => s.keywords.oneOf
  | .allOf => s.keywords.allOf

/-- The branch of a union at an index, as a site. -/
def Union.site (u : Union) (index : Nat) (s : Schema) : Site :=
  ⟨u.place.step (.branch index), u.depth + 1, s⟩

/-- The branches that are there, as sites. -/
def Union.sites (u : Union) : List Site :=
  u.branches.zipIdx.filterMap fun slot => slot.1.map (u.site slot.2)

/-- The branches that a walk goes on to. -/
def Union.entered (u : Union) : List Site := if u.isExamined then u.sites else []

namespace Site

/-- The walk from a site. -/
def visits (x : Site) : List Visit := x.schema.visits x.place x.depth

/-- The union of a schema under a keyword. -/
def union (x : Site) (keyword : Composition) : Union :=
  ⟨x.place.step (.composition keyword), keyword, x.schema.branches keyword, x.depth⟩

/-- A part of a schema that is no branch, as a site. -/
def part (x : Site) (step : Step) (s : Schema) : Site := ⟨x.place.step step, x.depth, s⟩

/-- The properties that are there, as sites. -/
def properties (x : Site) : List Site :=
  x.schema.properties.filterMap fun entry => entry.2.map (x.part (.property entry.1))

/-- The items and the additional properties, as sites. -/
def others (x : Site) : List Site :=
  x.schema.keywords.items.toList.map (x.part .items) ++
    x.schema.additional?.toList.map (x.part .additional)

/-- The schemas that a walk goes on to from a schema that it has entered. -/
def entered (x : Site) : List Site :=
  (x.union .anyOf).entered ++ (x.union .oneOf).entered ++ x.properties ++ x.others

/-- The union stops of a schema under a keyword. -/
def unionStops (x : Site) (keyword : Composition) : List Visit :=
  if (x.schema.branches keyword).isEmpty then [] else [.union (x.union keyword)]

/-- The stops that a schema makes on its own account once it is entered. -/
def stops (x : Site) : List Visit :=
  [.schema x.place x.schema, .names x.place x.schema.properties.names] ++
    (x.unionStops .anyOf ++ x.unionStops .oneOf)

end Site

/-! ### One step of the walk -/

theorem slotVisits_eq (place : Place) (depth : Nat) (slot : Slot) :
    slotVisits place depth slot =
      (slot.toList.map (Site.mk place depth)).flatMap Site.visits := by
  cases slot <;> simp [slotVisits, Site.visits]

theorem branchVisits_eq (place : Place) (depth index : Nat) (branches : List Slot) :
    branchVisits place depth index branches =
      ((branches.zipIdx index).filterMap fun slot =>
        slot.1.map (Site.mk (place.step (.branch slot.2)) depth)).flatMap Site.visits := by
  induction branches generalizing index with
  | nil => rfl
  | cons slot rest ih => cases slot <;> simp [branchVisits, ih, slotVisits, Site.visits]

theorem propertyVisits_eq (place : Place) (depth : Nat) (properties : List (String × Slot)) :
    propertyVisits place depth properties =
      (properties.filterMap fun entry =>
        entry.2.map (Site.mk (place.step (.property entry.1)) depth)).flatMap Site.visits := by
  induction properties with
  | nil => rfl
  | cons entry rest ih =>
      obtain ⟨name, slot⟩ := entry
      cases slot <;> simp [propertyVisits, ih, slotVisits, Site.visits]

theorem additionalVisits_eq (place : Place) (depth : Nat) (s : Schema) :
    additionalVisits place depth s.keywords.additional =
      (s.additional?.toList.map (Site.mk place depth)).flatMap Site.visits := by
  rw [Schema.additional?]
  rcases s.keywords.additional with _ | ⟨value | keywords⟩ <;>
    simp [additionalVisits, Site.visits]

/-- The walk through a union is the union itself and the walks from the branches it leads on to. -/
theorem Union.visits_eq (u : Union) :
    Union.visits u (branchVisits u.place (u.depth + 1) 0 u.branches) =
      (if u.branches.isEmpty then [] else [.union u]) ++ u.entered.flatMap Site.visits := by
  rw [branchVisits_eq]
  by_cases hempty : u.branches = []
  · simp [Union.visits, Union.entered, Union.sites, hempty]
  · simp only [Union.visits, Union.entered, Union.sites, List.isEmpty_iff, hempty, if_false,
      List.cons_append, List.nil_append]
    split <;> rfl

namespace Site

/-- A reference is not entered. -/
theorem visits_of_isReference {x : Site} (h : x.schema.isReference = true) : x.visits = [] := by
  obtain ⟨place, depth, s⟩ := x
  cases s with
  | boolean value => simp [Schema.isReference, Schema.keywords] at h
  | object keywords =>
      have h : (keywords.ref != "") = true := h
      simp [visits, Schema.visits, h]

/-- **One step of the walk**: a schema that is entered makes its own stops, in this order, around
the walks from the schemas it leads on to. -/
theorem visits_eq {x : Site} (h : x.schema.isReference = false) :
    x.visits = .schema x.place x.schema ::
      ((x.unionStops .anyOf ++ (x.union .anyOf).entered.flatMap visits) ++
        (x.unionStops .oneOf ++ (x.union .oneOf).entered.flatMap visits) ++
        (x.properties ++ x.others).flatMap visits ++
        [.names x.place x.schema.properties.names]) := by
  obtain ⟨place, depth, s⟩ := x
  cases s with
  | boolean value => rfl
  | object keywords =>
      have h : (keywords.ref != "") = false := h
      -- each part of the walk is put into the form it has in terms of sites
      have any := Union.visits_eq (Site.union ⟨place, depth, .object keywords⟩ .anyOf)
      have one := Union.visits_eq (Site.union ⟨place, depth, .object keywords⟩ .oneOf)
      have additional := additionalVisits_eq (place.step .additional) depth (.object keywords)
      simp only [visits, Schema.visits, h]
      simp only [Site.union, Schema.branches, Schema.keywords] at any one additional
      simp only [any, one, propertyVisits_eq, slotVisits_eq, additional]
      simp only [unionStops, Site.union, Schema.branches, Schema.keywords, properties, others,
        Schema.properties, List.flatMap_append, List.append_assoc]
      rfl

/-- **One step of the walk, up to order**: the stops of a schema and the walks from the schemas it
leads on to. -/
theorem visits_perm {x : Site} (h : x.schema.isReference = false) :
    x.visits.Perm (x.stops ++ x.entered.flatMap visits) := by
  rw [visits_eq h, stops, entered, ← Multiset.coe_eq_coe]
  simp only [List.flatMap_append, List.cons_append, List.nil_append, ← Multiset.cons_coe,
    ← Multiset.coe_add]
  simp only [← Multiset.singleton_add]
  abel

end Site

/-! ### The sites that a walk goes on to -/

theorem Union.mem_sites_iff {u : Union} {y : Site} :
    y ∈ u.sites ↔ ∃ index s, u.branches[index]? = some (some s) ∧ y = u.site index s := by
  simp only [sites, List.mem_filterMap, Option.map_eq_some_iff, Prod.exists,
    List.mk_mem_zipIdx_iff_getElem?]
  constructor
  · rintro ⟨slot, index, hslot, s, rfl, rfl⟩
    exact ⟨index, s, hslot, rfl⟩
  · rintro ⟨index, s, hs, rfl⟩
    exact ⟨some s, index, hs, s, rfl, rfl⟩

theorem Union.mem_entered_iff {u : Union} {y : Site} :
    y ∈ u.entered ↔ u.isExamined = true ∧
      ∃ index s, u.branches[index]? = some (some s) ∧ y = u.site index s := by
  rw [entered]
  split <;> simp_all [mem_sites_iff]

namespace Site

theorem mem_properties_iff {x y : Site} :
    y ∈ x.properties ↔
      ∃ name s, (name, some s) ∈ x.schema.properties ∧ y = x.part (.property name) s := by
  simp only [properties, List.mem_filterMap, Option.map_eq_some_iff, Prod.exists]
  constructor
  · rintro ⟨name, slot, hslot, s, rfl, rfl⟩
    exact ⟨name, s, hslot, rfl⟩
  · rintro ⟨name, s, hs, rfl⟩
    exact ⟨name, some s, hs, s, rfl, rfl⟩

theorem mem_others_iff {x y : Site} :
    y ∈ x.others ↔
      (∃ s, x.schema.keywords.items = some s ∧ y = x.part .items s) ∨
        ∃ s, x.schema.additional? = some s ∧ y = x.part .additional s := by
  simp [others, eq_comm]

/-- A walk goes on to branches of unions, to properties, to items and to additional properties. -/
theorem mem_entered_iff {x y : Site} :
    y ∈ x.entered ↔
      (∃ keyword, keyword ≠ .allOf ∧ y ∈ (x.union keyword).entered) ∨ y ∈ x.properties ∨
        y ∈ x.others := by
  simp only [entered, List.mem_append, or_assoc]
  constructor
  · rintro (h | h | h)
    · exact .inl ⟨.anyOf, by simp, h⟩
    · exact .inl ⟨.oneOf, by simp, h⟩
    · exact .inr h
  · rintro (⟨_ | _ | _, hkeyword, h⟩ | h)
    · exact .inl h
    · exact .inr (.inl h)
    · exact absurd rfl hkeyword
    · exact .inr (.inr h)

/-- What is entered from a schema is one of its parts. -/
theorem schema_mem_subschemas {x y : Site} (h : y ∈ x.entered) :
    y.schema ∈ x.schema.keywords.subschemas := by
  rw [Keywords.mem_subschemas_iff]
  rcases mem_entered_iff.1 h with ⟨keyword, -, h⟩ | h | h
  · obtain ⟨-, index, s, hs, rfl⟩ := Union.mem_entered_iff.1 h
    have hs := List.mem_of_getElem? hs
    cases keyword with
    | anyOf => exact .inr (.inr (.inr (.inl hs)))
    | oneOf => exact .inr (.inr (.inr (.inr (.inl hs))))
    | allOf => exact .inr (.inr (.inr (.inr (.inr hs))))
  · obtain ⟨name, s, hs, rfl⟩ := mem_properties_iff.1 h
    exact .inl ⟨name, hs⟩
  · rcases mem_others_iff.1 h with ⟨s, hs, rfl⟩ | ⟨s, hs, rfl⟩
    · exact .inr (.inl hs)
    · refine .inr (.inr (.inl ?_))
      rw [Schema.additional?] at hs
      split at hs
      · rename_i keywords heq
        cases hs
        exact heq
      · cases hs

/-- The walk from a schema holds the walks from the schemas that it leads on to. -/
theorem visits_subset_of_mem_entered {x y : Site} (href : x.schema.isReference = false)
    (hy : y ∈ x.entered) : y.visits ⊆ x.visits := fun _ hv =>
  (visits_perm href).mem_iff.2 (List.mem_append_right _ (List.mem_flatMap.2 ⟨y, hy, hv⟩))

/-- Induction along the walk: what holds of a site as soon as it holds of the sites that the walk
goes on to holds of all sites. -/
theorem inductionOn {motive : Site → Prop} (x : Site)
    (step : ∀ x, (∀ y ∈ x.entered, motive y) → motive x) : motive x := by
  obtain ⟨place, depth, s⟩ := x
  induction s using Schema.inductionOn generalizing place depth with
  | boolean value => exact step _ fun y hy => absurd (schema_mem_subschemas hy) (by
      simp [Schema.keywords, Keywords.mem_subschemas_iff])
  | object keywords ih => exact step _ fun y hy => ih y.schema (schema_mem_subschemas hy) _ _

/-- What is entered from a sorted schema is sorted. -/
theorem sorted_of_mem_entered {x y : Site} (hx : x.schema.Sorted) (h : y ∈ x.entered) :
    y.schema.Sorted :=
  hx.part (schema_mem_subschemas h)

end Site

/-! ### No place is visited twice in the same way -/

/-- The place of a stop, and whether it is the stop at which a schema is left. -/
def Visit.label : Visit → Bool × Place
  | .schema place _ => (false, place)
  | .union u => (false, u.place)
  | .names place _ => (true, place)

namespace Union

theorem under_of_mem_entered {u : Union} {y : Site} (h : y ∈ u.entered) :
    ∃ index, y.place = u.place.step (.branch index) := by
  obtain ⟨-, index, s, -, rfl⟩ := mem_entered_iff.1 h
  exact ⟨index, rfl⟩

/-- The branches of a union are apart. -/
theorem pairwise_apart_entered (u : Union) :
    u.entered.Pairwise fun y z => y.place.Apart z.place := by
  rw [entered]
  split
  · refine List.pairwise_filterMap.2 ?_
    have hindex : u.branches.zipIdx.Pairwise fun a b => a.2 ≠ b.2 :=
      List.pairwise_map.1 (List.nodup_zipIdx_map_snd u.branches)
    refine hindex.imp fun {a b} hab y hy z hz => ?_
    obtain ⟨s, -, rfl⟩ := Option.map_eq_some_iff.1 hy
    obtain ⟨t, -, rfl⟩ := Option.map_eq_some_iff.1 hz
    exact Place.apart_step (by simpa using hab)
  · exact List.Pairwise.nil

end Union

namespace Site

/-- The branches of a union are below the list of branches, all else is one step away. -/
theorem exists_step_of_mem_entered {x y : Site} (h : y ∈ x.entered) :
    (∃ keyword index, y.place = (x.union keyword).place.step (.branch index)) ∨
      ∃ s, (∀ keyword, s ≠ .composition keyword) ∧ y.place = x.place.step s := by
  rcases mem_entered_iff.1 h with ⟨keyword, -, h⟩ | h | h
  · exact .inl ⟨keyword, Union.under_of_mem_entered h⟩
  · obtain ⟨name, s, -, rfl⟩ := mem_properties_iff.1 h
    exact .inr ⟨.property name, by simp, rfl⟩
  · rcases mem_others_iff.1 h with ⟨s, -, rfl⟩ | ⟨s, -, rfl⟩
    · exact .inr ⟨.items, by simp, rfl⟩
    · exact .inr ⟨.additional, by simp, rfl⟩

theorem under_of_mem_entered {x y : Site} (h : y ∈ x.entered) : x.place.Under y.place := by
  rcases exists_step_of_mem_entered h with ⟨keyword, index, hy⟩ | ⟨s, -, hy⟩
  · rw [hy]
    exact (Place.under_step _ _).trans (Place.under_step _ _)
  · rw [hy]
    exact Place.under_step _ _

theorem pairwise_apart_properties {x : Site} (h : x.schema.properties.Sorted) :
    x.properties.Pairwise fun y z => y.place.Apart z.place := by
  refine List.pairwise_filterMap.2 (List.Pairwise.imp (fun {a b} hab y hy z hz => ?_) h)
  obtain ⟨s, -, rfl⟩ := Option.map_eq_some_iff.1 hy
  obtain ⟨t, -, rfl⟩ := Option.map_eq_some_iff.1 hz
  refine Place.apart_step fun heq => ?_
  exact absurd hab (by simp [Step.property.inj heq])

theorem pairwise_apart_others (x : Site) :
    x.others.Pairwise fun y z => y.place.Apart z.place := by
  rw [others]
  rcases x.schema.keywords.items with _ | s <;> rcases x.schema.additional? with _ | t
  · simp
  · simp
  · simp
  · simp only [Option.toList_some, List.map_cons, List.map_nil, List.cons_append, List.nil_append,
      List.pairwise_cons, List.mem_singleton, forall_eq, List.not_mem_nil, false_imp_iff,
      implies_true, List.Pairwise.nil, and_self, and_true]
    exact Place.apart_step (by simp)

/-- The sites that a walk goes on to from a sorted schema are apart. -/
theorem pairwise_apart_entered {x : Site} (h : x.schema.properties.Sorted) :
    x.entered.Pairwise fun y z => y.place.Apart z.place := by
  have union : ∀ {keyword y}, y ∈ (x.union keyword).entered →
      (x.place.step (.composition keyword)).Under y.place := by
    intro keyword y hy
    obtain ⟨index, hy⟩ := Union.under_of_mem_entered hy
    exact hy ▸ Place.under_step _ _
  have property : ∀ {y}, y ∈ x.properties →
      ∃ name, (x.place.step (.property name)).Under y.place := by
    intro y hy
    obtain ⟨name, s, -, rfl⟩ := mem_properties_iff.1 hy
    exact ⟨name, .refl⟩
  have other : ∀ {y}, y ∈ x.others →
      (x.place.step .items).Under y.place ∨ (x.place.step .additional).Under y.place := by
    intro y hy
    rcases mem_others_iff.1 hy with ⟨s, -, rfl⟩ | ⟨s, -, rfl⟩
    · exact .inl .refl
    · exact .inr .refl
  have apart : ∀ {s t y z}, s ≠ t → (x.place.step s).Under y → (x.place.step t).Under z →
      y.Apart z := fun hst hy hz => (Place.apart_step hst).mono hy hz
  rw [entered]
  refine List.pairwise_append.2 ⟨List.pairwise_append.2 ⟨List.pairwise_append.2
    ⟨(x.union .anyOf).pairwise_apart_entered, (x.union .oneOf).pairwise_apart_entered, ?_⟩,
    pairwise_apart_properties h, ?_⟩, x.pairwise_apart_others, ?_⟩
  · exact fun y hy z hz => apart (by simp) (union hy) (union hz)
  · intro y hy z hz
    obtain ⟨name, hz⟩ := property hz
    rcases List.mem_append.1 hy with hy | hy
    · exact apart (by simp) (union hy) hz
    · exact apart (by simp) (union hy) hz
  · intro y hy z hz
    rcases List.mem_append.1 hy with hy | hy
    · rcases List.mem_append.1 hy with hy | hy <;> rcases other hz with hz | hz <;>
        exact apart (by simp) (union hy) hz
    · obtain ⟨name, hy⟩ := property hy
      rcases other hz with hz | hz <;> exact apart (by simp) hy hz

/-- The stops of a schema are at its own place or at a list of branches. -/
theorem place_of_mem_stops {x : Site} {v : Visit} (h : v ∈ x.stops) :
    v.label.2 = x.place ∨ ∃ keyword, v.label.2 = (x.union keyword).place := by
  simp only [stops, unionStops, List.cons_append, List.nil_append, List.mem_cons,
    List.mem_append] at h
  rcases h with rfl | rfl | h | h
  · exact .inl rfl
  · exact .inl rfl
  · split at h
    · simp at h
    · exact .inr ⟨.anyOf, by rw [List.mem_singleton.1 h]; rfl⟩
  · split at h
    · simp at h
    · exact .inr ⟨.oneOf, by rw [List.mem_singleton.1 h]; rfl⟩

/-- All stops of a walk are below its start. -/
theorem under_of_mem_visits {x : Site} {v : Visit} (h : v ∈ x.visits) :
    x.place.Under v.label.2 := by
  induction x using inductionOn with
  | step x ih =>
      cases href : x.schema.isReference with
      | true => simp [visits_of_isReference href] at h
      | false =>
          rcases List.mem_append.1 ((visits_perm href).mem_iff.1 h) with h | h
          · rcases place_of_mem_stops h with h | ⟨keyword, h⟩
            · exact h ▸ .refl
            · exact h ▸ Place.under_step _ _
          · obtain ⟨y, hy, h⟩ := List.mem_flatMap.1 h
            exact (under_of_mem_entered hy).trans (ih y hy h)

/-- No stop of a schema is below a site that the walk goes on to. -/
theorem not_under_of_mem_stops {x y : Site} {v : Visit} (hv : v ∈ x.stops) (hy : y ∈ x.entered) :
    ¬y.place.Under v.label.2 := by
  rcases exists_step_of_mem_entered hy with ⟨keyword, index, hy⟩ | ⟨s, hs, hy⟩ <;>
    rcases place_of_mem_stops hv with hv | ⟨keyword', hv⟩ <;> rw [hy, hv]
  · exact Place.not_under_of_length_lt (by simp [Place.length, Site.union])
  · exact Place.not_under_of_length_lt (by simp [Place.length, Site.union])
  · exact Place.not_step_under _ _
  · exact Place.apart_step (hs keyword').symm _ .refl

/-- **The walk from a sorted schema visits no place twice in the same way.** -/
theorem nodup_labels {x : Site} (h : x.schema.Sorted) : (x.visits.map Visit.label).Nodup := by
  induction x using inductionOn with
  | step x ih =>
      cases href : x.schema.isReference with
      | true => simp [visits_of_isReference href]
      | false =>
          -- own stops differ, walks from different parts are apart, and no stop is below a part
          rw [((visits_perm href).map Visit.label).nodup_iff, List.map_append, List.map_flatMap]
          refine List.nodup_append.2 ⟨?_, List.nodup_flatMap.2 ⟨?_, ?_⟩, ?_⟩
          · simp only [stops, unionStops]
            split <;> split <;>
              simp [Visit.label, Site.union, Place.ne_step]
          · exact fun y hy => ih y hy (sorted_of_mem_entered h hy)
          · refine (pairwise_apart_entered h.properties).imp fun {y z} hyz => ?_
            intro l hl hl'
            obtain ⟨v, hv, rfl⟩ := List.mem_map.1 hl
            obtain ⟨w, hw, hwv⟩ := List.mem_map.1 hl'
            exact hyz _ (under_of_mem_visits hv) (hwv ▸ under_of_mem_visits hw)
          · intro l hl l' hl' heq
            obtain ⟨v, hv, rfl⟩ := List.mem_map.1 hl
            obtain ⟨y, hy, hl'⟩ := List.mem_flatMap.1 hl'
            obtain ⟨w, hw, rfl⟩ := List.mem_map.1 hl'
            exact not_under_of_mem_stops hv hy (heq ▸ under_of_mem_visits hw)

end Site

/-! ### Documents -/

namespace Document

/-- The entries of a group of definitions. -/
def entries (d : Document) : DefinitionGroup → NameMap Slot
  | .defs => d.defs
  | .definitions => d.definitions

/-- The sites at which a document is entered. -/
def sites (d : Document) : List Site :=
  d.roots.map fun root => ⟨.origin root.1, 0, root.2⟩

/-- The unions that a walk meets. -/
def unions (d : Document) : List Union :=
  d.visits.filterMap fun
    | .union u => some u
    | _ => none

theorem visits_eq_flatMap (d : Document) : d.visits = d.sites.flatMap Site.visits := by
  rw [sites, List.flatMap_map]
  rfl

theorem sortedMap_entries (d : Document) (group : DefinitionGroup) :
    Schema.SortedMap (d.entries group) := by
  cases group with
  | defs => exact d.sorted_defs
  | definitions => exact d.sorted_definitions

theorem roots_eq (d : Document) :
    d.roots = (.document, d.root) ::
      (DefinitionGroup.defs.roots (d.entries .defs) ++
        DefinitionGroup.definitions.roots (d.entries .definitions)) :=
  rfl

theorem mem_group_roots_iff {group : DefinitionGroup} {entries : NameMap Slot}
    {root : Origin × Schema} :
    root ∈ group.roots entries ↔
      ∃ name s, (name, some s) ∈ entries ∧ root = (.definition group name, s) := by
  simp only [DefinitionGroup.roots, List.mem_filterMap, Option.map_eq_some_iff, Prod.exists]
  constructor
  · rintro ⟨name, slot, hslot, s, rfl, rfl⟩
    exact ⟨name, s, hslot, rfl⟩
  · rintro ⟨name, s, hs, rfl⟩
    exact ⟨name, some s, hs, s, rfl, rfl⟩

/-- A walk starts at the root and at the definitions that are there. -/
theorem mem_roots_iff {d : Document} {root : Origin × Schema} :
    root ∈ d.roots ↔
      root = (.document, d.root) ∨
        ∃ group name s, (name, some s) ∈ d.entries group ∧ root = (.definition group name, s) := by
  rw [roots_eq, List.mem_cons, List.mem_append, mem_group_roots_iff, mem_group_roots_iff]
  refine or_congr_right ⟨?_, ?_⟩
  · rintro (⟨name, s, h⟩ | ⟨name, s, h⟩)
    · exact ⟨.defs, name, s, h⟩
    · exact ⟨.definitions, name, s, h⟩
  · rintro ⟨_ | _, name, s, h⟩
    · exact .inl ⟨name, s, h⟩
    · exact .inr ⟨name, s, h⟩

theorem pairwise_origin_ne_of_sorted {group : DefinitionGroup} {entries : NameMap Slot}
    (h : entries.Sorted) : (group.roots entries).Pairwise fun a b => a.1 ≠ b.1 := by
  refine List.pairwise_filterMap.2 (List.Pairwise.imp (fun {a b} hab x hx y hy => ?_) h)
  obtain ⟨s, -, rfl⟩ := Option.map_eq_some_iff.1 hx
  obtain ⟨t, -, rfl⟩ := Option.map_eq_some_iff.1 hy
  intro heq
  exact absurd hab (by simp [(Origin.definition.inj heq).2])

/-- No two walks start at the same origin. -/
theorem pairwise_origin_ne (d : Document) : d.roots.Pairwise fun a b => a.1 ≠ b.1 := by
  rw [roots_eq]
  refine List.pairwise_cons.2 ⟨fun root h => ?_, List.pairwise_append.2
    ⟨pairwise_origin_ne_of_sorted (d.sortedMap_entries .defs).1,
      pairwise_origin_ne_of_sorted (d.sortedMap_entries .definitions).1, fun a ha b hb => ?_⟩⟩
  · rcases List.mem_append.1 h with h | h <;>
      obtain ⟨name, s, -, rfl⟩ := mem_group_roots_iff.1 h <;> simp
  · obtain ⟨name, s, -, rfl⟩ := mem_group_roots_iff.1 ha
    obtain ⟨name', s', -, rfl⟩ := mem_group_roots_iff.1 hb
    simp

theorem sorted_of_mem_roots {d : Document} {root : Origin × Schema} (h : root ∈ d.roots) :
    root.2.Sorted := by
  rcases mem_roots_iff.1 h with rfl | ⟨group, name, s, hs, rfl⟩
  · exact d.sorted_root
  · exact (d.sortedMap_entries group).2 _ hs s rfl

/-- **No place of a document is visited twice in the same way.** -/
theorem nodup_labels (d : Document) : (d.visits.map Visit.label).Nodup := by
  rw [visits_eq_flatMap, List.map_flatMap]
  refine List.nodup_flatMap.2 ⟨fun x hx => ?_, List.pairwise_map.2 ?_⟩
  · obtain ⟨root, hroot, rfl⟩ := List.mem_map.1 hx
    exact Site.nodup_labels (sorted_of_mem_roots hroot)
  · refine d.pairwise_origin_ne.imp fun {a b} hab l hl hl' => ?_
    obtain ⟨v, hv, rfl⟩ := List.mem_map.1 hl
    obtain ⟨w, hw, hwv⟩ := List.mem_map.1 hl'
    have apart : (Place.origin a.1).Apart (.origin b.1) := Place.apart_of_start_ne hab
    exact apart _ (Site.under_of_mem_visits hv) (hwv ▸ Site.under_of_mem_visits hw)

theorem mem_unions_iff {d : Document} {u : Union} : u ∈ d.unions ↔ .union u ∈ d.visits := by
  simp only [unions, List.mem_filterMap]
  constructor
  · rintro ⟨v, hv, h⟩
    split at h
    · cases h
      exact hv
    · cases h
  · exact fun h => ⟨_, h, rfl⟩

/-- **No two unions of a document stand in the same place.** -/
theorem nodup_places_unions (d : Document) : (d.unions.map Union.place).Nodup := by
  refine List.pairwise_map.2 (List.pairwise_filterMap.2 ?_)
  refine (List.pairwise_map.1 d.nodup_labels).imp fun {v w} hvw u hu u' hu' => ?_
  split at hu <;> split at hu' <;> simp_all [Visit.label]

end Document

end SchemaAudit
