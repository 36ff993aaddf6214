/-
**What else a reference says.**

A schema that is a reference is not entered, and what stands beside its `$ref` is not supposed to
count.  Two documents that differ only there have the same bare form, in which nothing is left of a
reference but its target.  The walks through such documents go in lockstep as long as their unions
are judged alike; but a union may be judged by what its references say otherwise, so that reports
differ.

Main definitions:

* `Schema.bare`, `Document.SameBare` — schemas without what else their references say, and documents
  that agree on all but this;
* `Document.JudgedAlike` — unions in the same place are judged alike;
* `Document.SiblingsAgree` — the references in the branches of these unions agree on what may count.

Main results:

* `Document.findings_eq_iff` — **documents with the same bare form have the same findings under all
  settings exactly when their unions are judged alike**; nothing counts of a reference but its
  target, the type `null`, the property that marks references, and its tag;
* `Document.exists_audit_ne_of_sameBare` — these do count.
-/

import SchemaAudit.Proofs.Judgement
import SchemaAudit.Proofs.Lockstep

set_option relaxedAutoImplicit false
set_option autoImplicit false

namespace SchemaAudit

/-! ### Bare forms -/

/-- Applies a function to all parts. -/
def Keywords.map {α β : Type} (f : α → β) (keywords : Keywords α) : Keywords β where
  type := keywords.type
  properties := keywords.properties.map fun entry => (entry.1, entry.2.map f)
  required := keywords.required
  items := keywords.items.map f
  additional := keywords.additional.map f
  anyOf := keywords.anyOf.map (Option.map f)
  oneOf := keywords.oneOf.map (Option.map f)
  allOf := keywords.allOf.map (Option.map f)
  const := keywords.const
  enum := keywords.enum
  ref := keywords.ref

mutual

/-- The schema without what its references say beside their targets. -/
def Schema.bare : Schema → Schema
  | .boolean value => .boolean value
  | .object
      ⟨type, properties, required, items, additional, anyOf, oneOf, allOf, const, enum, ref⟩ =>
    if ref != "" then .object { ref }
    else
      .object ⟨type, bareEntries properties, required, bareSlot items, bareSlot additional,
        bareSlots anyOf, bareSlots oneOf, bareSlots allOf, const, enum, ref⟩

/-- The bare form of the schema in a slot. -/
def bareSlot : Option Schema → Option Schema
  | none => none
  | some s => some s.bare

/-- The bare forms of branches. -/
def bareSlots : List (Option Schema) → List (Option Schema)
  | [] => []
  | slot :: rest => bareSlot slot :: bareSlots rest

/-- The bare forms of properties. -/
def bareEntries : List (String × Option Schema) → List (String × Option Schema)
  | [] => []
  | (name, slot) :: rest => (name, bareSlot slot) :: bareEntries rest

end

theorem bareSlot_eq (slot : Slot) : bareSlot slot = slot.map Schema.bare := by
  cases slot <;> simp [bareSlot]

theorem bareSlots_eq (slots : List Slot) :
    bareSlots slots = slots.map (Option.map Schema.bare) := by
  induction slots with
  | nil => simp [bareSlots]
  | cons slot rest ih => simp [bareSlots, ih, bareSlot_eq]

theorem bareEntries_eq (entries : NameMap Slot) :
    bareEntries entries = entries.map fun entry => (entry.1, entry.2.map Schema.bare) := by
  induction entries with
  | nil => simp [bareEntries]
  | cons entry rest ih => simp [bareEntries, ih, bareSlot_eq]

namespace Schema

theorem bare_of_isReference {s : Schema} (h : s.isReference = true) :
    s.bare = .object { ref := s.keywords.ref } := by
  cases s with
  | boolean value => simp [isReference, keywords] at h
  | object keywords =>
      have h : (keywords.ref != "") = true := h
      simp [bare, h, Schema.keywords]

theorem bare_object {keywords : Keywords Schema}
    (h : (Schema.object keywords).isReference = false) :
    (Schema.object keywords).bare = .object (keywords.map bare) := by
  have h : (keywords.ref != "") = false := h
  simp [bare, h, Keywords.map, bareSlot_eq, bareSlots_eq, bareEntries_eq]

/-- Below a schema that is no reference bare forms are taken part by part. -/
theorem keywords_bare {s : Schema} (h : s.isReference = false) :
    s.bare.keywords = s.keywords.map bare := by
  cases s with
  | boolean value => simp [bare, keywords, Keywords.map]
  | object keywords => rw [bare_object h]; rfl

theorem ref_bare (s : Schema) : s.bare.keywords.ref = s.keywords.ref := by
  cases h : s.isReference with
  | true => rw [bare_of_isReference h]; rfl
  | false => rw [keywords_bare h]; rfl

theorem isReference_bare (s : Schema) : s.bare.isReference = s.isReference := by
  rw [isReference, isReference, ref_bare]

theorem isReference_eq_of_bare_eq {s t : Schema} (h : s.bare = t.bare) :
    s.isReference = t.isReference := by
  rw [← isReference_bare s, h, isReference_bare]

section

variable {s : Schema} (h : s.isReference = false)

include h

theorem isOpen_bare : s.bare.isOpen = s.isOpen := by
  rw [isOpen, isOpen, keywords_bare h, Keywords.map]
  rcases s.keywords.additional with _ | _ | keywords
  · rfl
  · simp [bare]
  · simp only [Option.map_some]
    cases href : (Schema.object keywords).isReference with
    | true => rw [bare_of_isReference href]
    | false => rw [bare_object href]

theorem additional?_bare : s.bare.additional? = s.additional?.map bare := by
  rw [additional?, additional?, keywords_bare h, Keywords.map]
  rcases s.keywords.additional with _ | _ | keywords
  · rfl
  · simp [bare]
  · simp only [Option.map_some]
    cases href : (Schema.object keywords).isReference with
    | true => rw [bare_of_isReference href]
    | false => rw [bare_object href]

theorem branches_bare (keyword : Composition) :
    s.bare.branches keyword = (s.branches keyword).map (Option.map bare) := by
  cases keyword <;> rw [branches, branches, keywords_bare h] <;> rfl

theorem properties_bare :
    s.bare.properties = s.properties.map fun entry => (entry.1, entry.2.map bare) := by
  rw [properties, keywords_bare h]
  rfl

/-- The scale profile does not look below a schema. -/
theorem scaleFindings_bare (place : Place) :
    scaleFindings place s.bare = scaleFindings place s := by
  have shallow := keywords_bare h
  have properties : s.bare.properties.isEmpty = s.properties.isEmpty := by
    rw [properties_bare h, List.isEmpty_map]
  have typed : s.bare.hasType = s.hasType := by rw [hasType, hasType, shallow]; rfl
  have types : s.bare.typeList = s.typeList := by rw [typeList, typeList, shallow]; rfl
  simp only [scaleFindings, compositionFindings, isOpen_bare h, isMeaningful, hasMixedType,
    properties, typed, types, shallow, Keywords.map, List.isEmpty_map, Option.isSome_map]

end

end Schema

/-! ### Sites and unions in bare form -/

/-- The site with the bare form of its schema. -/
def Site.bare (x : Site) : Site := ⟨x.place, x.depth, x.schema.bare⟩

/-- The union with the bare forms of its branches. -/
def Union.bare (u : Union) : Union :=
  ⟨u.place, u.keyword, u.branches.map (Option.map Schema.bare), u.depth⟩

theorem Union.sites_bare (u : Union) : u.bare.sites = u.sites.map Site.bare := by
  simp only [sites, bare, List.zipIdx_map, List.filterMap_map, List.map_filterMap]
  refine List.filterMap_congr fun slot _ => ?_
  obtain ⟨_ | s, index⟩ := slot <;> rfl

namespace Site

variable {x y : Site}

theorem union_bare (h : x.schema.isReference = false) (keyword : Composition) :
    x.bare.union keyword = (x.union keyword).bare := by
  simp only [union, bare, Union.bare, Schema.branches_bare h]

theorem properties_bare (h : x.schema.isReference = false) :
    x.bare.properties = x.properties.map bare := by
  simp only [properties, bare, Schema.properties_bare h, List.filterMap_map, List.map_filterMap]
  refine List.filterMap_congr fun entry _ => ?_
  obtain ⟨name, _ | s⟩ := entry <;> rfl

theorem others_bare (h : x.schema.isReference = false) : x.bare.others = x.others.map bare := by
  simp only [others, bare, Schema.additional?_bare h, Schema.keywords_bare h, Keywords.map]
  rcases x.schema.keywords.items with _ | s <;> rcases x.schema.additional? with _ | t <;> rfl

end Site

/-! ### Unions in bare form -/

namespace Union

variable {u u' : Union}

theorem inlineFrom_bare (index : Nat) (branches : List Slot) :
    inlineFrom index (branches.map (Option.map Schema.bare)) =
      (inlineFrom index branches).map fun v => (v.1, v.2.bare) := by
  induction branches generalizing index with
  | nil => rfl
  | cons slot rest ih =>
      cases slot with
      | none => exact ih (index + 1)
      | some s =>
          simp only [List.map_cons, Option.map_some, inlineFrom, Schema.isReference_bare, ih]
          split <;> rfl

/-- Whether an inline branch is open does not depend on what references say. -/
theorem openFindings_bare (u : Union) : u.bare.openFindings = u.openFindings := by
  rw [openFindings, variants, bare, inlineFrom_bare, List.flatMap_map]
  refine List.flatMap_congr fun v hv => ?_
  have href := (mem_variants_iff.1 (show (v.1, v.2) ∈ u.variants from hv)).2
  simp only [Schema.isOpen_bare href]

/-- What is wrong with a union depends on its bare form and on how it is judged. -/
theorem findings_eq_of_judgedAlike (hbare : u.bare = u'.bare) (h : u.JudgedAlike u')
    (config : Config) : u.findings config = u'.findings config := by
  have place : u.place = u'.place := (congrArg Union.place hbare :)
  have depth : u.depth = u'.depth := (congrArg Union.depth hbare :)
  have length : u.branches.length = u'.branches.length := by
    simpa [bare] using congrArg (fun u => u.branches.length) hbare
  have openings : u.openFindings = u'.openFindings := by
    rw [← openFindings_bare u, hbare, openFindings_bare]
  rw [findings, findings, h.1, h.2, place, depth, length, openings]

end Union

/-! ### What may count of a reference -/

namespace Schema

/-- Two branches agree on what may count of the references they are or hold. -/
structure SiblingsAgree (s t : Schema) : Prop where
  /-- If they are references, both have the type `null` or none has. -/
  null : s.isReference = true → (s.singleType? = some "null" ↔ t.singleType? = some "null")
  /-- If they are references, both declare the property that marks references or none does. -/
  marked : s.isReference = true →
    (s.property? referenceProperty).isSome = (t.property? referenceProperty).isSome
  /-- If they are none, their properties that are references have the same tags. -/
  const : s.isReference = false → ∀ {field p q}, s.property? field = some p →
    t.property? field = some q → p.isReference = true →
      p.keywords.const.map Json.Value.string? = q.keywords.const.map Json.Value.string?

theorem property?_bare {s : Schema} (h : s.isReference = false) (name : String) :
    s.bare.property? name = (s.property? name).map bare := by
  have find : ∀ entries : NameMap Slot,
      NameMap.find? (entries.map fun entry => (entry.1, entry.2.map bare)) name =
        (entries.find? name).map (Option.map bare) := by
    intro entries
    induction entries with
    | nil => rfl
    | cons entry rest ih =>
        obtain ⟨key, slot⟩ := entry
        simp only [NameMap.find?, List.map_cons, List.lookup_cons] at ih ⊢
        rw [ih]
        split <;> rfl
  rw [property?, property?, properties_bare h, find]
  rcases s.properties.find? name with _ | _ | p <;> rfl

/-- **Branches with the same bare form have the same role** as long as the references that they are
or hold agree on what may count. -/
theorem sameRole_of_siblingsAgree {s t : Schema} (hbare : s.bare = t.bare)
    (h : s.SiblingsAgree t) : s.SameRole t := by
  have reference : s.isReference = t.isReference := isReference_eq_of_bare_eq hbare
  have ref : s.keywords.ref = t.keywords.ref := by rw [← ref_bare s, hbare, ref_bare]
  cases href : s.isReference with
  | true =>
      have href' := reference.symm.trans href
      refine ⟨reference, h.null href, ?_, ?_, ?_⟩
      · simp [href, href']
      · rw [isReferenceSide, isReferenceSide, h.marked href, reference, ref]
      · exact fun hfalse => absurd href (by simp [hfalse])
  | false =>
      have href' := reference.symm.trans href
      have type : s.keywords.type = t.keywords.type := by
        have hkeywords : s.bare.keywords.type = t.bare.keywords.type := by rw [hbare]
        rwa [keywords_bare href, keywords_bare href'] at hkeywords
      have property : ∀ name, (s.property? name).map bare = (t.property? name).map bare := by
        intro name
        rw [← property?_bare href, hbare, property?_bare href']
      refine ⟨reference, ?_, ?_, ?_, fun _ field => ?_⟩
      · rw [singleType?, singleType?, type]
      · rw [hasType, hasType, type, reference]
      · have side := congrArg Option.isSome (property referenceProperty)
        simp only [Option.isSome_map] at side
        rw [isReferenceSide, isReferenceSide, side, reference, ref]
      · cases hp : s.property? field with
        | none =>
            have hq : t.property? field = none := by simpa [hp] using (property field).symm
            rw [tagState, tagState, hp, hq]
        | some p =>
            obtain ⟨q, hq, hqp⟩ : ∃ q, t.property? field = some q ∧ q.bare = p.bare := by
              simpa [hp] using (property field).symm
            -- the bare form keeps the constant, unless the property is a reference
            have const : p.keywords.const.map Json.Value.string? =
                q.keywords.const.map Json.Value.string? := by
              cases hpref : p.isReference with
              | true => exact h.const href hp hq hpref
              | false =>
                  have hqref := (isReference_eq_of_bare_eq hqp).trans hpref
                  have hconst : q.bare.keywords.const = p.bare.keywords.const := by rw [hqp]
                  rw [keywords_bare hpref, keywords_bare hqref] at hconst
                  exact congrArg _ hconst.symm
            rw [tagState, tagState, hp, hq, Option.map_some, Option.map_some, const]

end Schema

/-- The branches of two unions agree, slot by slot, on what may count of references. -/
def Union.SiblingsAgree (u u' : Union) : Prop :=
  ∀ (index : Nat) (s t : Schema), u.branches[index]? = some (some s) →
    u'.branches[index]? = some (some t) → s.SiblingsAgree t

theorem Union.judgedAlike_of_siblingsAgree {u u' : Union} (hbare : u.bare = u'.bare)
    (h : u.SiblingsAgree u') : u.JudgedAlike u' := by
  have branches : u.branches.map (Option.map Schema.bare) =
      u'.branches.map (Option.map Schema.bare) := (congrArg Union.branches hbare :)
  refine judgedAlike_of_sameRole (congrArg Union.place hbare :) (congrArg Union.keyword hbare :)
    (List.forall₂_iff_zip.2
      ⟨by simpa using congrArg List.length branches, fun {slot slot'} hz => ?_⟩)
  obtain ⟨index, hindex⟩ := List.mem_iff_getElem?.1 hz
  obtain ⟨hs, ht⟩ := List.getElem?_zip_eq_some.1 hindex
  have hslots : slot.map Schema.bare = slot'.map Schema.bare := by
    simpa [hs, ht] using congrArg (fun l => l[index]?) branches
  rcases slot with _ | s <;> rcases slot' with _ | t
  · exact .none
  · cases hslots
  · cases hslots
  · exact .some (Schema.sameRole_of_siblingsAgree (Option.some.inj hslots) (h index s t hs ht))

/-! ### Documents that agree on all but what their references say -/

/-- The documents differ in nothing but in what references say beside their targets. -/
structure Document.SameBare (d e : Document) : Prop where
  root : d.root.bare = e.root.bare
  defs : bareEntries d.defs = bareEntries e.defs
  definitions : bareEntries d.definitions = bareEntries e.definitions

namespace Document

variable {d e : Document}

theorem roots_bareEntries (group : DefinitionGroup) (entries : NameMap Slot) :
    group.roots (bareEntries entries) =
      (group.roots entries).map fun root => (root.1, root.2.bare) := by
  rw [DefinitionGroup.roots, DefinitionGroup.roots, bareEntries_eq, List.filterMap_map,
    List.map_filterMap]
  refine List.filterMap_congr fun entry _ => ?_
  obtain ⟨name, _ | s⟩ := entry <;> rfl

/-- Documents with the same bare form are entered at the same sites. -/
theorem SameBare.sites_eq (h : d.SameBare e) : d.sites.map Site.bare = e.sites.map Site.bare := by
  have group : ∀ {group : DefinitionGroup} {entries entries' : NameMap Slot},
      bareEntries entries = bareEntries entries' →
        (group.roots entries).map (fun root => (root.1, root.2.bare)) =
          (group.roots entries').map fun root => (root.1, root.2.bare) := by
    intro group entries entries' h
    rw [← roots_bareEntries, h, roots_bareEntries]
  have roots : d.roots.map (fun root => (root.1, root.2.bare)) =
      e.roots.map fun root => (root.1, root.2.bare) := by
    simp only [Document.roots, List.map_cons, List.map_append, h.root, group h.defs,
      group h.definitions]
  have site : ∀ d : Document, d.sites.map Site.bare =
      (d.roots.map fun root => (root.1, root.2.bare)).map fun root =>
        ⟨.origin root.1, 0, root.2⟩ := by
    intro d
    simp only [sites, List.map_map]
    rfl
  rw [site, roots, site]

/-- Two sites with the same bare form, each of them reached in its document. -/
def Together (d e : Document) (x y : Site) : Prop :=
  x.bare = y.bare ∧ (x.schema.isReference = false → d.Reaches x ∧ e.Reaches y)

theorem Together.isReference_eq {x y : Site} (h : Together d e x y) :
    x.schema.isReference = y.schema.isReference :=
  Schema.isReference_eq_of_bare_eq (congrArg Site.schema h.1)

/-- **The walks through two documents with the same bare form go in lockstep** where their unions
are judged alike. -/
theorem lockstep_of_together (config : Config)
    (hjudged : ∀ u u', d.Meets u → e.Meets u' → u.bare = u'.bare → u.JudgedAlike u')
    {x y : Site} (h : Together d e x y) (href : x.schema.isReference = false) :
    x.Lockstep (Together d e) (Visit.findings config) (Visit.findings config) y := by
  have href' : y.schema.isReference = false := h.isReference_eq.symm.trans href
  obtain ⟨hbare, hreaches⟩ := h
  obtain ⟨hx, hy⟩ := hreaches href
  have place : x.place = y.place := (congrArg Site.place hbare :)
  have schema : x.schema.bare = y.schema.bare := (congrArg Site.schema hbare :)
  have union : ∀ keyword, (x.union keyword).bare = (y.union keyword).bare := fun keyword => by
    rw [← Site.union_bare href, hbare, Site.union_bare href']
  have empty : ∀ keyword, x.schema.branches keyword = [] ↔ y.schema.branches keyword = [] := by
    intro keyword
    rw [← List.map_eq_nil_iff (f := Option.map Schema.bare), ← Schema.branches_bare href, schema,
      Schema.branches_bare href', List.map_eq_nil_iff]
  -- this is the only use of how unions are judged
  have judged : ∀ keyword, keyword ≠ .allOf → x.schema.branches keyword ≠ [] →
      (x.union keyword).JudgedAlike (y.union keyword) := by
    intro keyword hkeyword hne
    exact hjudged _ _ (.intro hx href hkeyword hne)
      (.intro hy href' hkeyword ((empty keyword).not.1 hne)) (union keyword)
  -- what the walks go on to is reached again
  have below : ∀ {zs zs' : List Site}, (∀ z ∈ zs, z ∈ x.entered) → (∀ z ∈ zs', z ∈ y.entered) →
      zs.map Site.bare = zs'.map Site.bare → List.Forall₂ (Together d e) zs zs' := by
    intro zs zs' hzs hzs' hmap
    refine forall₂_of_map_eq hmap fun z hz z' hz' hzz' => ⟨hzz', fun hzref => ?_⟩
    have hzref' := (Schema.isReference_eq_of_bare_eq (congrArg Site.schema hzz')).symm.trans hzref
    exact ⟨hx.of_mem_entered href (hzs z hz) hzref, hy.of_mem_entered href' (hzs' z' hz') hzref'⟩
  refine ⟨?_, fun keyword hkeyword => ?_, fun keyword hkeyword => ?_, ?_, ?_⟩
  · rw [Visit.findings, Visit.findings, ← Schema.scaleFindings_bare href, schema,
      Schema.scaleFindings_bare href', place]
  · by_cases hempty : x.schema.branches keyword = []
    · simp [Site.unionStops, hempty, (empty keyword).1 hempty]
    · have findings := Union.findings_eq_of_judgedAlike (union keyword)
        (judged keyword hkeyword hempty) config
      simp [Site.unionStops, hempty, (empty keyword).not.1 hempty, Visit.findings, findings]
  · have member : ∀ {x z : Site}, z ∈ (x.union keyword).entered → z ∈ x.entered := fun hz =>
      Site.mem_entered_iff.2 (.inl ⟨keyword, hkeyword, hz⟩)
    refine below (fun z => member) (fun z => member) ?_
    by_cases hempty : x.schema.branches keyword = []
    · simp [Union.entered, Union.sites, Site.union, hempty, (empty keyword).1 hempty]
    · rw [Union.entered, Union.entered, (judged keyword hkeyword hempty).1]
      split
      · rw [← Union.sites_bare, union, Union.sites_bare]
      · rfl
  · refine below (fun z hz => ?_) (fun z hz => ?_) ?_
    · exact Site.mem_entered_iff.2 (.inr (List.mem_append.1 hz))
    · exact Site.mem_entered_iff.2 (.inr (List.mem_append.1 hz))
    · rw [List.map_append, List.map_append, ← Site.properties_bare href, ← Site.others_bare href,
        hbare, Site.properties_bare href', Site.others_bare href']
  · have names : ∀ {s : Schema}, s.isReference = false →
        s.bare.properties.names = s.properties.names := by
      intro s hs
      rw [Schema.properties_bare hs, NameMap.names, NameMap.names, List.map_map]
      rfl
    rw [Visit.findings, Visit.findings, ← names href, schema, names href', place]

/-- What references say does not show where unions are judged alike. -/
theorem findings_eq_of_judgedAlike (h : d.SameBare e) (config : Config)
    (hjudged : ∀ u u', d.Meets u → e.Meets u' → u.bare = u'.bare → u.JudgedAlike u') :
    d.findings config = e.findings config := by
  have reaches : ∀ {d : Document} {x : Site}, x ∈ d.sites → d.Reaches x := by
    intro d x hx
    obtain ⟨root, hroot, rfl⟩ := List.mem_map.1 hx
    exact reaches_of_mem_roots hroot
  refine flatMap_visits_eq (R := Together d e) Together.isReference_eq
    (lockstep_of_together config hjudged) ?_
  exact forall₂_of_map_eq h.sites_eq fun x hx y hy hxy => ⟨hxy, fun _ => ⟨reaches hx, reaches hy⟩⟩

/-- Unions that stand in the same place of two documents are judged alike. -/
def JudgedAlike (d e : Document) : Prop :=
  ∀ u u', d.Meets u → e.Meets u' → u.place = u'.place → u.JudgedAlike u'

/-- Unions that stand in the same place of two documents agree on what may count of references. -/
def SiblingsAgree (d e : Document) : Prop :=
  ∀ u u', d.Meets u → e.Meets u' → u.place = u'.place → u.SiblingsAgree u'

/-- The findings of two documents show how their unions are judged. -/
theorem judgedAlike_of_findings_eq (h : ∀ config, d.findings config = e.findings config) :
    d.JudgedAlike e := by
  intro u u' hu hu' hplace
  have ne : ∀ {d : Document} {u : Union}, d.Meets u → u.branches ≠ [] := fun ⟨_, _, _, hne⟩ => hne
  refine Union.judgedAlike_of_findings_eq (ne hu) (ne hu') fun config => ?_
  -- each union has its part of the findings, and the two parts are the same
  rw [← filter_owner config (mem_unions_iff_meets.2 hu), h, hplace,
    filter_owner config (mem_unions_iff_meets.2 hu')]

/-- **What counts of a reference besides its target.**  Documents with the same bare form have the
same findings under all settings exactly when their unions are judged alike, and then the same
reports.  This is so when their references agree on the type `null` and on the property that marks
references, where they are branches, and on the tag, where they are properties of branches. -/
theorem findings_eq_iff (h : d.SameBare e) :
    ((∀ config, d.findings config = e.findings config) ↔ d.JudgedAlike e) ∧
      (d.JudgedAlike e → ∀ config, d.audit config = e.audit config) ∧
      (d.SiblingsAgree e → ∀ config, d.audit config = e.audit config) := by
  have findings : (∀ u u', d.Meets u → e.Meets u' → u.bare = u'.bare → u.JudgedAlike u') →
      ∀ config, d.findings config = e.findings config := fun hjudged config =>
    findings_eq_of_judgedAlike h config hjudged
  have place : ∀ {u u' : Union}, u.bare = u'.bare → u.place = u'.place := fun hbare =>
    (congrArg Union.place hbare :)
  have judged : d.JudgedAlike e → ∀ config, d.findings config = e.findings config :=
    fun hjudged => findings fun u u' hu hu' hbare => hjudged u u' hu hu' (place hbare)
  refine ⟨⟨judgedAlike_of_findings_eq, judged⟩, fun hjudged config => ?_,
    fun hsiblings config => ?_⟩
  · rw [audit, audit, judged hjudged]
  · have same := findings fun u u' hu hu' hbare =>
      Union.judgedAlike_of_siblingsAgree hbare (hsiblings u u' hu hu' (place hbare))
    rw [audit, audit, same]

/-- A choice between an object and a reference that has a type besides. -/
def choice (type : Option TypeDecl) : Document where
  root := .object
    { anyOf := [some (.object { type, ref := "#/x" }),
        some (.object { type := some (.single "object") })] }
  sorted_root := .object List.Pairwise.nil fun part hpart => by
    obtain rfl | rfl : part = .object { type, ref := "#/x" } ∨
        part = .object { type := some (.single "object") } := by
      simpa [Keywords.mem_subschemas_iff] using hpart
    · exact .object List.Pairwise.nil fun part hpart => by
        simp [Keywords.mem_subschemas_iff] at hpart
    · exact .object List.Pairwise.nil fun part hpart => by
        simp [Keywords.mem_subschemas_iff] at hpart

theorem sameBare_choice (type type' : Option TypeDecl) : (choice type).SameBare (choice type') :=
  ⟨rfl, rfl, rfl⟩

/-- The choice has the same findings with another type exactly when it is judged alike. -/
theorem findings_choice_eq_iff :
    (choice (some (.single "null"))).SameBare (choice none) ∧
      ((∀ config,
          (choice (some (.single "null"))).findings config = (choice none).findings config) ↔
        (choice (some (.single "null"))).JudgedAlike (choice none)) :=
  ⟨sameBare_choice _ _, (findings_eq_iff (sameBare_choice _ _)).1⟩

/-- **What references say beside their targets may count**: with the type `null` beside it, a
reference makes a choice nullable, and no tag is asked for. -/
theorem exists_audit_ne_of_sameBare :
    ¬∀ (config : Config) (d e : Document), d.SameBare e → d.audit config = e.audit config := by
  intro h
  have hchoice := h {} (choice (some (.single "null"))) (choice none) (sameBare_choice _ _)
  exact absurd hchoice (by decide)

end Document

end SchemaAudit
