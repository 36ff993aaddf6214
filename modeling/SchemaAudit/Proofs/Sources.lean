/-
**Where findings come from.**

Every finding of a document is made at a schema that the walk reaches: by the checks of the scale
profile, by the check of its property names, or at one of its unions.  This module says for each of
them what must be there for the finding to be made, in one inversion lemma for a union and one for a
document.

Main definitions:

* `Verdict.field?` — the field under which a verdict has the branches scanned;
* `Union.Reports` — **what is reported about a union that is looked into**, and on what grounds;
* `Document.Finds` — **what is found in a document**, and on what grounds.

Main results:

* `Union.reports_of_mem_findings`, `Document.finds_of_mem_findings` — nothing else is found.
-/

import SchemaAudit.Proofs.Verdicts

set_option relaxedAutoImplicit false
set_option autoImplicit false

namespace SchemaAudit

/-! ### Unions -/

/-- The field under which a verdict has the branches scanned. -/
def Verdict.field? : Verdict → Option String
  | .tagged field => some field
  | .referencePair attempt | .untagged attempt => attempt
  | .nullable | .referencesOnly | .lone => none

/-- Whether a verdict says that the union needs a tag and has none. -/
def Verdict.isUntagged : Verdict → Bool
  | .untagged _ => true
  | _ => false

namespace Union

variable {config : Config} {u : Union} {f : Finding} {field : String} {fields : List String}

/-- A verdict is that there is no tag, or not, and a scan under some field, or none. -/
theorem verdictFindings_eq (u : Union) (verdict : Verdict) :
    u.verdictFindings verdict =
      findIf verdict.isUntagged u.place (.untaggedUnion u.keyword) ++
        verdict.field?.elim [] fun field => tagFindings u.place field [] u.variants := by
  have attempt : ∀ attempt : Option String, u.attemptFindings attempt =
      attempt.elim [] fun field => tagFindings u.place field [] u.variants := by
    rintro (_ | field) <;> rfl
  cases verdict with
  | referencePair field => exact attempt field
  | untagged field => exact congrArg (List.cons _) (attempt field)
  | _ => rfl

/-- Branches are scanned under the fields that may be tags only. -/
theorem mem_of_field?_verdict (h : (u.verdict fields).field? = some field) : field ∈ fields := by
  have attempted : u.attemptedField? fields = some field → field ∈ fields :=
    List.mem_of_find?_eq_some
  rw [verdict] at h
  split at h
  · cases h
  · split at h
    · cases h
    · split at h
      · cases h
      · split at h
        · rename_i other hother
          obtain rfl : other = field := Option.some.inj h
          rw [tagField?] at hother
          split at hother
          · cases hother
          · exact List.mem_of_find?_eq_some hother
        · split at h
          · exact attempted h
          · exact attempted h

/-- What a scan finds, it finds by the rules. -/
theorem exists_breaks_of_mem_tagFindings (h : f ∈ tagFindings u.place field [] u.variants) :
    ∃ index findings, u.Breaks field index findings ∧ f ∈ findings := by
  choose broken hbroken using exists_breaks u field
  rw [tagFindings_eq hbroken] at h
  obtain ⟨index, -, hf⟩ := List.mem_flatMap.1 h
  exact ⟨index, broken index, hbroken index, hf⟩

/-- **What is reported about a union that is looked into.** -/
inductive Reports (config : Config) (u : Union) : Finding → Prop
  | large : config.maxUnionVariants < u.branches.length →
      Reports config u ⟨u.place, .largeUnion u.branches.length config.maxUnionVariants⟩
  | nested : config.maxUnionDepth ≤ u.depth →
      Reports config u ⟨u.place, .nestedUnion (u.depth + 1) config.maxUnionDepth⟩
  | untagged : Reports config u ⟨u.place, .untaggedUnion u.keyword⟩
  | tag {field : String} {index : Nat} {findings : List Finding} {f : Finding} :
      field ∈ config.tagFields → u.Breaks field index findings → f ∈ findings →
      Reports config u f
  | openVariant {index : Nat} {s : Schema} : u.HasVariant index s → s.isOpen = true →
      Reports config u ⟨u.place.step (.branch index), .openVariant⟩

theorem reports_of_mem_findings (h : f ∈ u.findings config) :
    u.isExamined = true ∧ u.Reports config f := by
  rw [findings] at h
  split at h
  · rename_i hexamined
    refine ⟨hexamined, ?_⟩
    simp only [verdictFindings_eq, List.mem_append, mem_findIf_iff, decide_eq_true_eq] at h
    rcases h with ((⟨hlarge, rfl⟩ | ⟨hnested, rfl⟩) | ⟨-, rfl⟩ | h) | h
    · exact .large hlarge
    · exact .nested hnested
    · exact .untagged
    · cases hfield : (u.verdict config.tagFields).field? with
      | none => simp [hfield] at h
      | some field =>
          rw [hfield] at h
          obtain ⟨index, findings, hbreaks, hf⟩ := exists_breaks_of_mem_tagFindings h
          exact .tag (mem_of_field?_verdict hfield) hbreaks hf
    · obtain ⟨⟨index, s⟩, hs, h⟩ := List.mem_flatMap.1 h
      obtain ⟨hopen, rfl⟩ := mem_findIf_iff.1 h
      exact .openVariant (mem_variants_iff.1 hs) hopen
  · cases h

end Union

/-- A property that has a schema is declared. -/
theorem Schema.mem_of_property? {s property : Schema} {name : String}
    (h : s.property? name = some property) : (name, some property) ∈ s.properties := by
  rw [Schema.property?, Option.join_eq_some_iff, NameMap.find?, List.lookup_eq_some_iff] at h
  obtain ⟨before, after, h, -⟩ := h
  simp [h]

/-! ### Documents -/

namespace Document

variable {config : Config} {d : Document}

/-- The inline branches of a union that is looked into are reached. -/
theorem Examines.reaches {u : Union} (h : d.Examines u) {index : Nat} {s : Schema}
    (hs : u.HasVariant index s) : d.Reaches (u.site index s) := by
  obtain ⟨@⟨x, keyword, hx, href, hkeyword, -⟩, hexamined⟩ := h
  exact .branch hx href hkeyword hexamined hs.1 hs.2

/-- **What is found in a document.** -/
inductive Finds (config : Config) (d : Document) : Finding → Prop
  | scale {x : Site} {f : Finding} : d.Reaches x → x.schema.isReference = false →
      f ∈ scaleFindings x.place x.schema → Finds config d f
  | union {u : Union} {f : Finding} : d.Examines u → u.Reports config f → Finds config d f
  | name {x : Site} {name : String} : d.Reaches x → x.schema.isReference = false →
      name ∈ x.schema.properties.names → config.naming.accepts name = false →
      Finds config d ⟨x.place.step (.property name), .misnamed name config.naming⟩

theorem finds_of_mem_findings {f : Finding} (h : f ∈ d.findings config) : d.Finds config f := by
  obtain ⟨v, hv, hf⟩ := List.mem_flatMap.1 h
  cases v with
  | schema place s =>
      obtain ⟨depth, hx, href⟩ := mem_visits_schema_iff.1 hv
      rw [Visit.findings] at hf
      split at hf
      · exact .scale hx href hf
      · cases hf
  | union u =>
      obtain ⟨hexamined, hreports⟩ := Union.reports_of_mem_findings hf
      exact .union ⟨mem_unions_iff_meets.1 (mem_unions_iff.2 hv),
        Union.isExamined_iff.1 hexamined⟩ hreports
  | names place names =>
      obtain ⟨x, hx, href, rfl, rfl⟩ := mem_visits_names_iff.1 hv
      obtain ⟨name, hname, hf⟩ := List.mem_flatMap.1 hf
      obtain ⟨haccepts, rfl⟩ := mem_findIf_iff.1 hf
      exact .name hx href hname (by simpa using haccepts)

end Document

end SchemaAudit
