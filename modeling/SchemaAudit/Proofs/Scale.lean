/-
**What a clean run under the scale profile certifies.**

Under the scale profile every schema that a walk enters is checked on its own.  A walk does not
enter every schema of a document: the branches of an `allOf` are left out, and so are those of
unions that are not looked into.  But a schema with branches is reported itself, so that where
nothing is reported nothing has been left out.

Main definitions:

* `Schema.Plain` — **what the scale profile asks of one schema**;
* `Document.Contains` — the schemas of a document, whether a walk enters them or not.

Main results:

* `scaleFindings_eq_nil_iff` — the checks of one schema are silent exactly when it is plain;
* `Document.scale_clean_iff` — **a run under the scale profile finds nothing of its own exactly when
  every schema of the document is plain**.
-/

import SchemaAudit.Proofs.Findings
import SchemaAudit.Proofs.Reach

set_option relaxedAutoImplicit false
set_option autoImplicit false

namespace SchemaAudit

/-! ### One schema -/

/-- **What the scale profile asks of a schema.** -/
structure Schema.Plain (s : Schema) : Prop where
  compositions : ∀ keyword, s.branches keyword = []
  closed : s.isOpen = false
  typed : s.boolean? = none → s.isMeaningful = true → s.hasType = true
  single : s.typeList.length ≤ 1

theorem Schema.isMeaningful_of_boolean {s : Schema} {value : Bool} (h : s.boolean? = some value) :
    s.isMeaningful = false := by
  cases s with
  | boolean value => rfl
  | object keywords => cases h

/-- The checks of a schema are silent exactly when it is plain. -/
theorem scaleFindings_eq_nil_iff (place : Place) {s : Schema} :
    scaleFindings place s = [] ↔ s.Plain := by
  simp only [scaleFindings, compositionFindings, List.append_eq_nil_iff, findIf_eq_nil_iff,
    Bool.not_eq_false', List.isEmpty_iff, Bool.and_eq_false_iff, Schema.hasMixedType,
    decide_eq_false_iff_not, Nat.not_lt]
  constructor
  · rintro ⟨⟨⟨⟨⟨hany, hone⟩, hall⟩, hopen⟩, htype⟩, hmixed⟩
    refine ⟨fun keyword => ?_, hopen, fun _ hmeaningful => ?_, hmixed⟩
    · cases keyword with
      | anyOf => exact hany
      | oneOf => exact hone
      | allOf => exact hall
    · exact htype.resolve_right (by simp [hmeaningful])
  · rintro ⟨hcompositions, hopen, htype, hmixed⟩
    refine ⟨⟨⟨⟨⟨hcompositions .anyOf, hcompositions .oneOf⟩, hcompositions .allOf⟩, hopen⟩, ?_⟩,
      hmixed⟩
    cases hmeaningful : s.isMeaningful with
    | false => exact .inr rfl
    | true =>
        refine .inl (htype ?_ hmeaningful)
        cases hboolean : s.boolean? with
        | none => rfl
        | some value => simp [Schema.isMeaningful_of_boolean hboolean] at hmeaningful

/-! ### All schemas of a document -/

/-- **The schemas of a document**: its root and definitions, and the parts of schemas that are no
references, whatever a walk would do with them. -/
inductive Document.Contains (d : Document) : Schema → Prop
  | root : d.Contains d.root
  | definition {group : DefinitionGroup} {name : String} {s : Schema} :
      (name, some s) ∈ d.entries group → d.Contains s
  | property {s part : Schema} {name : String} : d.Contains s → s.isReference = false →
      (name, some part) ∈ s.properties → d.Contains part
  | items {s part : Schema} : d.Contains s → s.isReference = false →
      s.keywords.items = some part → d.Contains part
  | additional {s part : Schema} : d.Contains s → s.isReference = false →
      s.additional? = some part → d.Contains part
  | branch {s part : Schema} {keyword : Composition} : d.Contains s → s.isReference = false →
      some part ∈ s.branches keyword → d.Contains part

namespace Document

variable {d : Document}

/-- What a walk reaches is in the document. -/
theorem Reaches.contains {x : Site} (h : d.Reaches x) : d.Contains x.schema := by
  induction h with
  | root => exact .root
  | definition hs => exact .definition hs
  | property _ href hs ih => exact .property ih href hs
  | items _ href hs ih => exact .items ih href hs
  | additional _ href hs ih => exact .additional ih href hs
  | branch _ href _ _ hs _ ih => exact .branch ih href (List.mem_of_getElem? hs)

/-- **Where every schema that is entered is plain, all schemas are reached.** -/
theorem Contains.exists_reaches
    (hplain : ∀ x, d.Reaches x → x.schema.isReference = false → x.schema.Plain) {s : Schema}
    (h : d.Contains s) : ∃ x, d.Reaches x ∧ x.schema = s := by
  induction h with
  | root => exact ⟨_, .root, rfl⟩
  | definition hs => exact ⟨_, .definition hs, rfl⟩
  | property _ href hs ih =>
      obtain ⟨x, hx, rfl⟩ := ih
      exact ⟨_, .property hx href hs, rfl⟩
  | items _ href hs ih =>
      obtain ⟨x, hx, rfl⟩ := ih
      exact ⟨_, .items hx href hs, rfl⟩
  | additional _ href hs ih =>
      obtain ⟨x, hx, rfl⟩ := ih
      exact ⟨_, .additional hx href hs, rfl⟩
  | @branch s part keyword _ href hs ih =>
      -- the schema with the branches is reached, so that it has none
      obtain ⟨x, hx, rfl⟩ := ih
      rw [(hplain x hx href).compositions keyword] at hs
      cases hs

/-- The scale profile finds nothing exactly when every schema that is entered is plain. -/
theorem scale_clean_iff_reaches (config : Config) (hscale : config.isScale = true) :
    (∀ issue ∈ (d.audit config).issues, issue.code ∉ Code.ofScale) ↔
      ∀ x, d.Reaches x → x.schema.isReference = false → x.schema.Plain := by
  have entered : (∀ issue ∈ (d.audit config).issues, issue.code ∉ Code.ofScale) ↔
      ∀ v ∈ d.visits, ∀ f ∈ v.findings config, f.problem.code ∉ Code.ofScale := by
    simp only [audit, findings, List.forall_mem_map, List.forall_mem_flatMap]
    rfl
  rw [entered]
  constructor
  · rintro hclean ⟨place, depth, s⟩ hx href
    have hvisit := hclean _ (mem_visits_schema_iff.2 ⟨depth, hx, href⟩)
    rw [Visit.findings, if_pos hscale] at hvisit
    refine (scaleFindings_eq_nil_iff place).1 (List.eq_nil_iff_forall_not_mem.2 fun f hf => ?_)
    exact hvisit f hf (code_of_mem_scaleFindings hf)
  · intro hplain v hv f hf
    cases v with
    | schema place s =>
        obtain ⟨depth, hx, href⟩ := mem_visits_schema_iff.1 hv
        have hsilent := (scaleFindings_eq_nil_iff place).2 (hplain _ hx href)
        rw [Visit.findings, if_pos hscale, hsilent] at hf
        cases hf
    | union u =>
        exact Code.not_mem_ofScale_of_mem_ofUnions
          (Union.finds_of_mem_findings (show f ∈ u.findings config from hf)).code_mem
    | names place names =>
        rw [code_of_mem_nameFindings hf]
        decide

/-- **A run under the scale profile that finds nothing of its own certifies every schema**, those
among them that no walk enters. -/
theorem scale_clean_iff (config : Config) (d : Document) :
    (∀ issue ∈ (d.audit { config with profile := .scale }).issues, issue.code ∉ Code.ofScale) ↔
      ∀ s, d.Contains s → s.isReference = false → s.Plain := by
  rw [scale_clean_iff_reaches _ rfl]
  constructor
  · intro hplain s hs href
    obtain ⟨x, hx, rfl⟩ := hs.exists_reaches hplain
    exact hplain x hx href
  · exact fun hplain x hx href => hplain x.schema hx.contains href

end Document

end SchemaAudit
