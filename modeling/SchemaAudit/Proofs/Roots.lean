/-
**Every root on its own.**

A document is walked from its root and from each of its definitions, and no walk knows of the
others.  What is found in a definition is what would be found if the definition were the root of a
document without definitions: only the way to the places starts elsewhere, and the name of the
definition is added.

Main definitions:

* `Place.rebase`, `Finding.rebase` — the same place, and a finding there, with another start;
* `Document.standalone` — the definitions of a group that are there, each as a document of its own;
* `Issue.under`, `DefinitionGroup.issues` — an issue as it is shown below a definition, and all
  issues of a group of definitions;
* `Document.AgreeOff` — documents that agree but for one definition.

Main results:

* `Site.findings_rebase` — **what is found on a walk does not depend on where the walk starts**;
* `Document.audit_roots` — **the issues of a document are those of its root and its definitions,
  each audited on its own**, and around the issues of one definition those of all others stay.
-/

import SchemaAudit.Proofs.ByteOrder
import SchemaAudit.Proofs.Identity
import SchemaAudit.Proofs.Lockstep

set_option relaxedAutoImplicit false
set_option autoImplicit false

namespace SchemaAudit

/-! ### The same way from another start -/

namespace Place

/-- The place that the same steps lead to from another origin. -/
def rebase (o : Origin) : Place → Place
  | .origin _ => .origin o
  | .step parent s => .step (parent.rebase o) s

@[simp] theorem rebase_origin (o o' : Origin) : (Place.origin o').rebase o = .origin o := rfl

@[simp] theorem rebase_step (o : Origin) (p : Place) (s : Step) :
    (p.step s).rebase o = (p.rebase o).step s := rfl

@[simp] theorem start_rebase (o : Origin) (p : Place) : (p.rebase o).start = o := by
  induction p with
  | origin _ => rfl
  | step p s ih => exact ih

/-- The notation of a place is that of its origin, and a rest that does not depend on the origin. -/
theorem exists_path_eq (p : Place) :
    ∃ rest, p.path = p.start.path ++ rest ∧ ∀ o, (p.rebase o).path = o.path ++ rest := by
  induction p with
  | origin o => exact ⟨"", by simp [path, start], fun o => by simp [path]⟩
  | step p s ih =>
      obtain ⟨rest, hrest, hrebase⟩ := ih
      refine ⟨rest ++ "/" ++ s.path, ?_, fun o => ?_⟩
      · simp only [path, start, hrest, String.append_assoc]
      · simp only [rebase_step, path, hrebase, String.append_assoc]

end Place

/-- The same problem, with another start. -/
def Finding.rebase (o : Origin) (f : Finding) : Finding := { f with place := f.place.rebase o }

/-- The same union, with another start. -/
def Union.rebase (o : Origin) (u : Union) : Union := { u with place := u.place.rebase o }

/-- The same schema, with another start. -/
def Site.rebase (o : Origin) (x : Site) : Site := { x with place := x.place.rebase o }

/-! ### What is found at one stop -/

section Stops

variable (o : Origin)

theorem findIf_rebase (condition : Bool) (place : Place) (problem : Problem) :
    (findIf condition place problem).map (Finding.rebase o) =
      findIf condition (place.rebase o) problem := by
  cases condition <;> rfl

theorem scaleFindings_rebase (place : Place) (s : Schema) :
    (scaleFindings place s).map (Finding.rebase o) = scaleFindings (place.rebase o) s := by
  simp only [scaleFindings, compositionFindings, List.map_append, findIf_rebase,
    Place.rebase_step]

theorem nameFindings_rebase (convention : NamingConvention) (place : Place) (names : List String) :
    (nameFindings convention place names).map (Finding.rebase o) =
      nameFindings convention (place.rebase o) names := by
  simp only [nameFindings, List.map_flatMap, findIf_rebase, Place.rebase_step]

theorem tagFindings_rebase (place : Place) (field : String) (seen : List String)
    (variants : List (Nat × Schema)) :
    (tagFindings place field seen variants).map (Finding.rebase o) =
      tagFindings (place.rebase o) field seen variants := by
  induction variants generalizing seen with
  | nil => rfl
  | cons variant rest ih =>
      obtain ⟨index, s⟩ := variant
      rw [tagFindings_cons, tagFindings_cons]
      split
      · rw [List.map_cons, ih]
        rfl
      · rw [List.map_cons, ih]
        rfl
      · exact ih seen
      · split
        · rw [List.map_cons, ih]
          rfl
        · exact ih _

namespace Union

theorem verdictFindings_rebase (u : Union) (verdict : Verdict) :
    (u.verdictFindings verdict).map (Finding.rebase o) =
      (u.rebase o).verdictFindings verdict := by
  rw [verdictFindings_eq, verdictFindings_eq, List.map_append, findIf_rebase]
  cases verdict.field? with
  | none => rfl
  | some field => exact congrArg (_ ++ ·) (tagFindings_rebase o u.place field [] u.variants)

theorem openFindings_rebase (u : Union) :
    u.openFindings.map (Finding.rebase o) = (u.rebase o).openFindings := by
  simp only [openFindings, List.map_flatMap, findIf_rebase, Place.rebase_step]
  rfl

theorem findings_rebase (config : Config) (u : Union) :
    (u.findings config).map (Finding.rebase o) = (u.rebase o).findings config := by
  have examined : (u.rebase o).isExamined = u.isExamined := rfl
  have verdict : (u.rebase o).verdict config.tagFields = u.verdict config.tagFields := rfl
  rw [findings, findings, examined, verdict]
  split
  · simp only [List.map_append, findIf_rebase, verdictFindings_rebase, openFindings_rebase]
    rfl
  · rfl

end Union

end Stops

/-! ### What is found on a walk -/

namespace Site

variable (o : Origin) (x : Site)

theorem unionStops_rebase (config : Config) (keyword : Composition) :
    ((x.unionStops keyword).flatMap (Visit.findings config)).map (Finding.rebase o) =
      ((x.rebase o).unionStops keyword).flatMap (Visit.findings config) := by
  have branches : (x.rebase o).schema.branches keyword = x.schema.branches keyword := rfl
  rw [unionStops, unionStops, branches]
  split
  · rfl
  · rw [List.flatMap_singleton, List.flatMap_singleton]
    exact (x.union keyword).findings_rebase o config

theorem entered_union_rebase (keyword : Composition) :
    ((x.rebase o).union keyword).entered = (x.union keyword).entered.map (Site.rebase o) := by
  have examined : ((x.rebase o).union keyword).isExamined = (x.union keyword).isExamined := rfl
  rw [Union.entered, Union.entered, examined]
  split
  · simp only [Union.sites, List.map_filterMap, Option.map_map]
    rfl
  · rfl

theorem parts_rebase :
    (x.rebase o).properties ++ (x.rebase o).others =
      (x.properties ++ x.others).map (Site.rebase o) := by
  simp only [properties, others, List.map_append, List.map_filterMap, Option.map_map, List.map_map]
  rfl

/-- **What is found on a walk does not depend on where the walk starts.** -/
theorem findings_rebase (config : Config) :
    (x.visits.flatMap (Visit.findings config)).map (Finding.rebase o) =
      (x.rebase o).visits.flatMap (Visit.findings config) := by
  have related : ∀ {l l' : List Site}, l' = l.map (Site.rebase o) →
      List.Forall₂ (fun x y => y = Site.rebase o x) l l' := by
    rintro l _ rfl
    exact List.forall₂_map_right_iff.2 (List.forall₂_same.2 fun _ _ => rfl)
  rw [List.map_flatMap]
  refine Site.flatMap_visits_eq (R := fun x y => y = x.rebase o) ?_ ?_ rfl
  · rintro x _ rfl
    rfl
  · rintro x _ rfl -
    refine ⟨?_, fun keyword _ => ?_, fun keyword _ => related (x.entered_union_rebase o keyword),
      related (x.parts_rebase o), nameFindings_rebase o _ _ _⟩
    · simp only [Visit.findings]
      split
      · exact scaleFindings_rebase o _ _
      · rfl
    · rw [← List.map_flatMap]
      exact x.unionStops_rebase o config keyword

end Site

/-! ### Sorted maps -/

namespace NameMap

variable {α : Type} {m m' : NameMap α}

/-- Sorted maps with the same entries are the same. -/
theorem Sorted.eq_of_mem_iff (h : m.Sorted) (h' : m'.Sorted)
    (hmem : ∀ entry, entry ∈ m ↔ entry ∈ m') : m = m' := by
  have : Std.Irrefl fun a b : String × α => a.1 < b.1 := ⟨fun a => lt_irrefl a.1⟩
  have : Std.Antisymm fun a b : String × α => a.1 < b.1 :=
    ⟨fun _ _ hab hba => absurd hba (lt_asymm hab)⟩
  exact List.Pairwise.eq_of_mem_iff h h' hmem

/-- A sorted map is what stands before a name, at the name and after the name. -/
theorem Sorted.filter_append_filter (h : m.Sorted) (name : String) :
    m.filter (·.1 < name) ++ (m.filter (·.1 = name) ++ m.filter (name < ·.1)) = m := by
  refine Sorted.eq_of_mem_iff ?_ h fun entry => ?_
  · refine List.pairwise_append.2 ⟨h.filter _, List.pairwise_append.2
      ⟨h.filter _, h.filter _, fun a ha b hb => ?_⟩, fun a ha b hb => ?_⟩
    · have ha : a.1 = name := by simpa using (List.mem_filter.1 ha).2
      simpa [ha] using (List.mem_filter.1 hb).2
    · have ha : a.1 < name := by simpa using (List.mem_filter.1 ha).2
      rcases List.mem_append.1 hb with hb | hb
      · have hb : b.1 = name := by simpa using (List.mem_filter.1 hb).2
        exact hb ▸ ha
      · have hb : name < b.1 := by simpa using (List.mem_filter.1 hb).2
        exact ha.trans hb
  · simp only [List.mem_append, List.mem_filter, decide_eq_true_eq, ← and_or_left]
    exact and_iff_left (lt_trichotomy entry.1 name)

end NameMap

/-! ### Definitions as documents of their own -/

namespace Document

/-- The document with a root and no definitions. -/
def alone (s : Schema) (sorted : s.Sorted) : Document where
  root := s
  sorted_root := sorted

/-- The schemas that a map holds, each as a document of its own. -/
def standaloneOf : (entries : NameMap Slot) → (∀ entry ∈ entries, ∀ s ∈ entry.2, s.Sorted) →
    NameMap Document
  | [], _ => []
  | (_, none) :: rest, h => standaloneOf rest fun entry he => h entry (List.mem_cons_of_mem _ he)
  | (name, some s) :: rest, h =>
    (name, alone s (h (name, some s) List.mem_cons_self s rfl)) ::
      standaloneOf rest fun entry he => h entry (List.mem_cons_of_mem _ he)

/-- **The definitions of a group that are there**, each as a document of its own. -/
def standalone (d : Document) (group : DefinitionGroup) : NameMap Document :=
  standaloneOf (d.entries group) (d.sortedMap_entries group).2

theorem mem_standaloneOf_iff {entries : NameMap Slot}
    {sorted : ∀ entry ∈ entries, ∀ s ∈ entry.2, s.Sorted} {name : String} {e : Document} :
    (name, e) ∈ standaloneOf entries sorted ↔
      ∃ (s : Schema) (hs : s.Sorted), (name, some s) ∈ entries ∧ e = alone s hs := by
  induction entries with
  | nil => simp [standaloneOf]
  | cons entry rest ih =>
      obtain ⟨other, _ | s⟩ := entry
      · rw [standaloneOf, ih]
        simp
      · rw [standaloneOf, List.mem_cons, ih]
        constructor
        · rintro (heq | ⟨t, ht, hmem, rfl⟩)
          · obtain ⟨rfl, rfl⟩ := Prod.mk.inj heq
            exact ⟨s, _, List.mem_cons_self, rfl⟩
          · exact ⟨t, ht, List.mem_cons_of_mem _ hmem, rfl⟩
        · rintro ⟨t, ht, hmem, rfl⟩
          rcases List.mem_cons.1 hmem with heq | hmem
          · cases heq
            exact .inl rfl
          · exact .inr ⟨t, ht, hmem, rfl⟩

theorem sorted_standaloneOf {entries : NameMap Slot}
    {sorted : ∀ entry ∈ entries, ∀ s ∈ entry.2, s.Sorted} (h : entries.Sorted) :
    (standaloneOf entries sorted).Sorted := by
  induction entries with
  | nil => exact List.Pairwise.nil
  | cons entry rest ih =>
      obtain ⟨hentry, hrest⟩ := List.pairwise_cons.1 h
      obtain ⟨name, _ | s⟩ := entry
      · exact ih hrest
      · refine List.pairwise_cons.2 ⟨?_, ih hrest⟩
        rintro ⟨other, e⟩ hmem
        obtain ⟨t, -, ht, -⟩ := mem_standaloneOf_iff.1 hmem
        exact hentry _ ht

variable {d e : Document} {group : DefinitionGroup} {name : String}

/-- Definitions that are there, and no others, stand on their own. -/
theorem mem_standalone_iff :
    (name, e) ∈ d.standalone group ↔
      ∃ (s : Schema) (hs : s.Sorted), (name, some s) ∈ d.entries group ∧ e = alone s hs :=
  mem_standaloneOf_iff

theorem sorted_standalone (d : Document) (group : DefinitionGroup) : (d.standalone group).Sorted :=
  sorted_standaloneOf (d.sortedMap_entries group).1

end Document

/-! ### Issues below a definition -/

/-- An issue of a document as it is shown below a definition: the name is added, and the way starts
at the definition in place of the sign for the document. -/
def Issue.under (group : DefinitionGroup) (name : String) (issue : Issue) : Issue :=
  { issue with
    path := "$/" ++ group.keyword ++ "/" ++ name ++ String.ofList issue.path.toList.tail
    typeName := some name }

/-- The issues of documents that stand for the definitions of a group. -/
def DefinitionGroup.issues (config : Config) (group : DefinitionGroup)
    (parts : NameMap Document) : List Issue :=
  parts.flatMap fun part => (part.2.audit config).issues.map (Issue.under group part.1)

theorem DefinitionGroup.issues_append (config : Config) (group : DefinitionGroup)
    (parts parts' : NameMap Document) :
    group.issues config (parts ++ parts') =
      group.issues config parts ++ group.issues config parts' :=
  List.flatMap_append

/-- A finding of a document, once its way starts at a definition, is shown below the definition. -/
theorem Finding.issue_rebase {f : Finding} (h : f.place.start = .document)
    (group : DefinitionGroup) (name : String) :
    (f.rebase (.definition group name)).issue = f.issue.under group name := by
  obtain ⟨rest, hpath, hrebase⟩ := f.place.exists_path_eq
  have tail : String.ofList f.place.path.toList.tail = rest := by
    simp [hpath, h, Origin.path]
  simp only [Finding.issue, Issue.under, Finding.rebase, hrebase, tail, Place.start_rebase,
    Origin.typeName?, Origin.path]

namespace Document

variable {config : Config} {d e : Document}

theorem alone_findings (config : Config) (s : Schema) (sorted : s.Sorted) :
    (alone s sorted).findings config =
      (Site.visits ⟨.origin .document, 0, s⟩).flatMap (Visit.findings config) := by
  simp [findings, visits, roots, alone, DefinitionGroup.roots, Site.visits]

/-- In a document without definitions all ways start at its root. -/
theorem start_of_mem_findings_alone {s : Schema} {sorted : s.Sorted} {f : Finding}
    (h : f ∈ (alone s sorted).findings config) : f.place.start = .document := by
  obtain ⟨root, hroot, hstart⟩ := (hasPlace_of_mem_findings h).exists_root
  obtain rfl : root = (.document, s) := by
    simpa [roots, alone, DefinitionGroup.roots] using hroot
  exact hstart.symm

/-- The issues of a definition are those of the document that it would be on its own. -/
theorem issues_definition (config : Config) (group : DefinitionGroup) (name : String) (s : Schema)
    (sorted : s.Sorted) :
    ((Site.visits ⟨.origin (.definition group name), 0, s⟩).flatMap
        (Visit.findings config)).map Finding.issue =
      ((alone s sorted).audit config).issues.map (Issue.under group name) := by
  have moved := Site.findings_rebase (.definition group name) ⟨.origin .document, 0, s⟩ config
  rw [← alone_findings config s sorted] at moved
  have site : Site.rebase (.definition group name) ⟨.origin .document, 0, s⟩ =
      ⟨.origin (.definition group name), 0, s⟩ := rfl
  rw [← site, ← moved, audit, List.map_map, List.map_map]
  exact List.map_congr_left fun f hf => f.issue_rebase (start_of_mem_findings_alone hf) group name

/-- The issues of a group of definitions are those of the documents that they would be on their
own. -/
theorem issues_group (config : Config) (group : DefinitionGroup) (entries : NameMap Slot)
    (sorted : ∀ entry ∈ entries, ∀ s ∈ entry.2, s.Sorted) :
    (((group.roots entries).flatMap fun root => root.2.visits (.origin root.1) 0).flatMap
        (Visit.findings config)).map Finding.issue =
      group.issues config (standaloneOf entries sorted) := by
  induction entries with
  | nil => rfl
  | cons entry rest ih =>
      have ih := ih fun entry he => sorted entry (List.mem_cons_of_mem _ he)
      obtain ⟨name, _ | s⟩ := entry
      · exact ih
      · have own := issues_definition config group name s
          (sorted (name, some s) List.mem_cons_self s rfl)
        have roots : group.roots ((name, some s) :: rest) =
            (.definition group name, s) :: group.roots rest := rfl
        rw [roots, List.flatMap_cons, List.flatMap_append, List.map_append, ih]
        exact congrArg (· ++ _) own

/-- The issues of a document, root by root. -/
theorem issues_eq (config : Config) (d : Document) :
    (d.audit config).issues =
      ((alone d.root d.sorted_root).audit config).issues ++
        DefinitionGroup.defs.issues config (d.standalone .defs) ++
        DefinitionGroup.definitions.issues config (d.standalone .definitions) := by
  have group := fun group => issues_group config group (d.entries group)
    (d.sortedMap_entries group).2
  rw [standalone, standalone, ← group .defs, ← group .definitions]
  simp only [audit, findings, visits, roots_eq, List.flatMap_cons, List.flatMap_append,
    List.map_append, List.append_assoc]
  rfl

/-! ### One definition among others -/

/-- **Documents that agree but for one definition**: either of them may lack it, hold an empty slot
under its name, or hold another schema there. -/
structure AgreeOff (d e : Document) (group : DefinitionGroup) (name : String) : Prop where
  root : d.root = e.root
  entries : ∀ (group' : DefinitionGroup) (entry : String × Slot),
    (group', entry.1) ≠ (group, name) → (entry ∈ d.entries group' ↔ entry ∈ e.entries group')

namespace AgreeOff

variable {group : DefinitionGroup} {name : String}

theorem alone_eq (h : d.AgreeOff e group name) :
    alone d.root d.sorted_root = alone e.root e.sorted_root := by
  simp only [h.root]

/-- Of definitions with other names both documents have the same. -/
theorem filter_standalone_eq (h : d.AgreeOff e group name) {group' : DefinitionGroup}
    {p : String → Bool} (hp : ∀ other, p other = true → (group', other) ≠ (group, name)) :
    (d.standalone group').filter (fun part => p part.1) =
      (e.standalone group').filter fun part => p part.1 := by
  refine NameMap.Sorted.eq_of_mem_iff (List.Pairwise.filter _ (d.sorted_standalone group'))
    (List.Pairwise.filter _ (e.sorted_standalone group')) ?_
  rintro ⟨other, part⟩
  rw [List.mem_filter, List.mem_filter, mem_standalone_iff, mem_standalone_iff]
  refine and_congr_left fun hother => exists₂_congr fun s _ => and_congr_left' ?_
  exact h.entries group' (other, some s) (hp other hother)

theorem standalone_eq (h : d.AgreeOff e group name) {group' : DefinitionGroup}
    (hne : group' ≠ group) : d.standalone group' = e.standalone group' := by
  have all := h.filter_standalone_eq (p := fun _ => true)
    fun (other : String) _ (heq : (group', other) = (group, name)) => hne (Prod.mk.inj heq).1
  simpa using all

end AgreeOff

/-- The issues of a group are those before a name, those of the name and those after it. -/
theorem issues_standalone_eq (config : Config) (d : Document) (group : DefinitionGroup)
    (name : String) :
    group.issues config (d.standalone group) =
      group.issues config ((d.standalone group).filter (·.1 < name)) ++
        (group.issues config ((d.standalone group).filter (·.1 = name)) ++
          group.issues config ((d.standalone group).filter (name < ·.1))) := by
  rw [← DefinitionGroup.issues_append, ← DefinitionGroup.issues_append,
    (d.sorted_standalone group).filter_append_filter name]

/-- Around the issues of one definition those of the root and of all other definitions stay. -/
theorem exists_issues_around (config : Config) (d : Document) (group : DefinitionGroup)
    (name : String) :
    ∃ before after, ∀ e : Document, e.AgreeOff d group name →
      (e.audit config).issues =
        before ++ group.issues config ((e.standalone group).filter (·.1 = name)) ++ after := by
  have below : ∀ {e : Document}, e.AgreeOff d group name →
      (e.standalone group).filter (·.1 < name) = (d.standalone group).filter (·.1 < name) :=
    fun h => h.filter_standalone_eq (p := fun other => decide (other < name)) (fun other hlt heq =>
      ne_of_lt (of_decide_eq_true hlt) (Prod.mk.inj heq).2)
  have above : ∀ {e : Document}, e.AgreeOff d group name →
      (e.standalone group).filter (name < ·.1) = (d.standalone group).filter (name < ·.1) :=
    fun h => h.filter_standalone_eq (p := fun other => decide (name < other)) (fun other hlt heq =>
      ne_of_gt (of_decide_eq_true hlt) (Prod.mk.inj heq).2)
  cases group with
  | defs =>
      refine ⟨((alone d.root d.sorted_root).audit config).issues ++
          DefinitionGroup.defs.issues config ((d.standalone .defs).filter (·.1 < name)),
        DefinitionGroup.defs.issues config ((d.standalone .defs).filter (name < ·.1)) ++
          DefinitionGroup.definitions.issues config (d.standalone .definitions), fun e h => ?_⟩
      have other : e.standalone .definitions = d.standalone .definitions :=
        h.standalone_eq (by simp)
      rw [issues_eq, issues_standalone_eq config e .defs name, h.alone_eq, below h, above h, other]
      simp only [List.append_assoc]
  | definitions =>
      refine ⟨((alone d.root d.sorted_root).audit config).issues ++
          DefinitionGroup.defs.issues config (d.standalone .defs) ++
          DefinitionGroup.definitions.issues config
            ((d.standalone .definitions).filter (·.1 < name)),
        DefinitionGroup.definitions.issues config
          ((d.standalone .definitions).filter (name < ·.1)), fun e h => ?_⟩
      have other : e.standalone .defs = d.standalone .defs := h.standalone_eq (by simp)
      rw [issues_eq, issues_standalone_eq config e .definitions name, h.alone_eq, below h, above h,
        other]
      simp only [List.append_assoc]

/-- **Every root on its own.**  The issues of a document are those of its root, audited as a
document without definitions, and then, for `$defs` and for `definitions`, those of the definitions
that are there, in the order of their names, each audited in the same way and shown below its own
name.  The issues of a root name no definition, and every way starts at the sign for the document.
Around the issues of one definition those of the root and of all other definitions stay the same and
in their order, whatever becomes of that definition. -/
theorem audit_roots (config : Config) (d : Document) :
    (d.audit config).issues =
        ((alone d.root d.sorted_root).audit config).issues ++
          DefinitionGroup.defs.issues config (d.standalone .defs) ++
          DefinitionGroup.definitions.issues config (d.standalone .definitions) ∧
      (∀ (s : Schema) (sorted : s.Sorted), ∀ issue ∈ ((alone s sorted).audit config).issues,
        issue.typeName = none ∧ ∃ rest, issue.path = "$" ++ rest ∧
          ∀ group name, (issue.under group name).path =
            "$/" ++ group.keyword ++ "/" ++ name ++ rest) ∧
      (∀ group, ((d.standalone group).names.map nameBytes).Pairwise (· < ·)) ∧
      (∀ group name e, (name, e) ∈ d.standalone group ↔
        ∃ (s : Schema) (sorted : s.Sorted),
          (name, some s) ∈ d.entries group ∧ e = alone s sorted) ∧
      ∀ group name, ∃ before after, ∀ e : Document, e.AgreeOff d group name →
        (e.audit config).issues =
          before ++ group.issues config ((e.standalone group).filter (·.1 = name)) ++ after := by
  refine ⟨issues_eq config d, fun s sorted issue hissue => ?_, fun group => ?_,
    fun group name e => mem_standalone_iff, exists_issues_around config d⟩
  · obtain ⟨f, hf, rfl⟩ := List.mem_map.1 hissue
    have start := start_of_mem_findings_alone hf
    obtain ⟨rest, hpath, -⟩ := f.place.exists_path_eq
    have path : f.issue.path = "$" ++ rest := by
      rw [Finding.issue, hpath, start, Origin.path]
    refine ⟨by rw [Finding.issue, start, Origin.typeName?], rest, path, fun group name => ?_⟩
    simp [Issue.under, path]
  · refine List.pairwise_map.2 (List.pairwise_map.2 ?_)
    exact (d.sorted_standalone group).imp fun h => nameBytes_lt_iff.2 h

end Document

end SchemaAudit
