/-
**How a union is judged.**

Of the branches of a union its verdict reads little: which of them are references, which are the
type `null`, which have a type at all, which stand for the reference of a pair, and what constants
the properties of the inline branches have.

Main definitions:

* `Union.JudgedAlike` — two unions are judged in the same way, whatever the settings;
* `Schema.SameRole` — two branches of unions are the same for a verdict.

Main results:

* `Union.judgedAlike_of_sameRole` — **unions whose branches have the same roles are judged alike**;
* `Union.judgedAlike_of_findings_eq` — unions with the same findings under all settings are judged
  alike.
-/

import SchemaAudit.Proofs.Verdicts

set_option relaxedAutoImplicit false
set_option autoImplicit false

namespace SchemaAudit

/-! ### Unions that are judged alike -/

namespace Union

variable {u u' : Union}

/-- The two unions are judged in the same way: both are looked into or none is, and the same is said
about their tags, whatever fields may be tags. -/
def JudgedAlike (u u' : Union) : Prop :=
  u.isExamined = u'.isExamined ∧
    ∀ fields, u.verdictFindings (u.verdict fields) = u'.verdictFindings (u'.verdict fields)

theorem verdictFindings_of_not_isExamined (h : u.isExamined = false) (fields : List String) :
    u.verdictFindings (u.verdict fields) = [] := by
  simp only [isExamined, Bool.and_eq_false_iff, Bool.not_eq_false'] at h
  rw [verdict]
  rcases h with h | h
  · rw [if_pos h]
    rfl
  · rw [if_pos h]
    split <;> rfl

/-- With a limit of no branches every union that is looked into is large. -/
theorem isExamined_iff_findings_ne_nil (hne : u.branches ≠ []) :
    u.isExamined = true ↔ u.findings { maxUnionVariants := 0 } ≠ [] := by
  have hlarge : 0 < u.branches.length := List.length_pos_iff.2 hne
  cases h : u.isExamined with
  | false => simp [findings_of_not_isExamined h]
  | true => simp [findings, h, hlarge]

/-- **The findings of a union show how it is judged.** -/
theorem judgedAlike_of_findings_eq (hne : u.branches ≠ []) (hne' : u'.branches ≠ [])
    (h : ∀ config, u.findings config = u'.findings config) : u.JudgedAlike u' := by
  -- a limit of no branches shows which unions are looked into, the codes show the verdict
  have examined : u.isExamined = u'.isExamined := by
    rw [Bool.eq_iff_iff, isExamined_iff_findings_ne_nil hne, isExamined_iff_findings_ne_nil hne', h]
  refine ⟨examined, fun fields => ?_⟩
  cases hu : u.isExamined with
  | false =>
      rw [verdictFindings_of_not_isExamined hu,
        verdictFindings_of_not_isExamined (examined.symm.trans hu)]
  | true =>
      have verdict : ∀ {u : Union}, u.isExamined = true →
          u.verdictFindings (u.verdict fields) =
            (u.findings { tagFields := fields }).filter fun f =>
              f.problem.code = .unionNoDiscriminator ∨ f.problem.code ∈ Code.ofTags := by
        intro u hu
        rw [filter_findings_of_isExamined
          (p := fun code => code = .unionNoDiscriminator ∨ code ∈ Code.ofTags) hu rfl rfl rfl]
        refine (List.filter_eq_self.2 fun f hf => ?_).symm
        exact decide_eq_true (code_of_mem_verdictFindings hf)
      rw [verdict hu, verdict (examined.symm.trans hu), h]

end Union

/-! ### What a verdict reads of a branch -/

namespace Schema

/-- **Two branches are the same for a verdict.** -/
structure SameRole (s t : Schema) : Prop where
  reference : s.isReference = t.isReference
  null : s.singleType? = some "null" ↔ t.singleType? = some "null"
  typed : s.hasType = true ∨ s.isReference = true ↔ t.hasType = true ∨ t.isReference = true
  side : isReferenceSide s = isReferenceSide t
  tags : s.isReference = false → ∀ field, s.tagState field = t.tagState field

end Schema

/-- Inline branches at the same index with the same tags. -/
def SameTags (v w : Nat × Schema) : Prop :=
  v.1 = w.1 ∧ ∀ field, v.2.tagState field = w.2.tagState field

section

variable {variants variants' : List (Nat × Schema)}

theorem tagFindings_eq_of_sameTags (h : List.Forall₂ SameTags variants variants') (place : Place)
    (field : String) (seen : List String) :
    tagFindings place field seen variants = tagFindings place field seen variants' := by
  induction h generalizing seen with
  | nil => rfl
  | @cons v w _ _ hvw _ ih =>
      obtain ⟨index, s⟩ := v
      obtain ⟨index', t⟩ := w
      obtain ⟨rfl, hstate⟩ := hvw
      rw [tagFindings_cons, tagFindings_cons, hstate field]
      simp only [ih]

theorem map_tag?_eq_of_sameTags (h : List.Forall₂ SameTags variants variants') (field : String) :
    (variants.map fun v => v.2.tag? field) = variants'.map fun v => v.2.tag? field := by
  induction h with
  | nil => rfl
  | cons hvw _ ih => rw [List.map_cons, List.map_cons, ih, Schema.tag?_eq_join, hvw.2,
      Schema.tag?_eq_join]

end

/-! ### Branches with the same roles -/

section

variable {branches branches' : List Slot}
  (h : List.Forall₂ (Option.Rel Schema.SameRole) branches branches')

include h

theorem any_eq_of_sameRole {p : Schema → Bool} (hp : ∀ {s t}, Schema.SameRole s t → p s = p t) :
    branches.reduceOption.any p = branches'.reduceOption.any p := by
  induction h with
  | nil => rfl
  | cons hslot _ ih =>
      cases hslot with
      | none => simpa using ih
      | some hst => simp [hp hst, ih]

theorem isNullable_eq_of_sameRole : isNullable branches = isNullable branches' := by
  have null : ∀ {s t}, Schema.SameRole s t →
      (s.singleType? == some "null") = (t.singleType? == some "null") := fun hst =>
    Bool.eq_iff_iff.2 (by simpa using hst.null)
  have typed : ∀ {s t}, Schema.SameRole s t →
      (s.hasType || s.isReference) = (t.hasType || t.isReference) := fun hst =>
    Bool.eq_iff_iff.2 (by simpa using hst.typed)
  have other : ∀ {s t}, Schema.SameRole s t →
      (!(s.singleType? == some "null") && (s.hasType || s.isReference)) =
        (!(t.singleType? == some "null") && (t.hasType || t.isReference)) := fun hst => by
    rw [null hst, typed hst]
  rw [isNullable, isNullable, h.length_eq, any_eq_of_sameRole h null, any_eq_of_sameRole h other]

theorem isReferencesOnly_eq_of_sameRole :
    isReferencesOnly branches = isReferencesOnly branches' := by
  rw [isReferencesOnly, isReferencesOnly, List.all_eq_not_any_not, List.all_eq_not_any_not,
    any_eq_of_sameRole h fun hst => by rw [hst.reference]]

theorem isReferencePair_eq_of_sameRole : isReferencePair branches = isReferencePair branches' := by
  rw [isReferencePair, isReferencePair, h.length_eq, any_eq_of_sameRole h fun hst => hst.side]

theorem sameTags_inlineFrom (index : Nat) :
    List.Forall₂ SameTags (inlineFrom index branches) (inlineFrom index branches') := by
  induction h generalizing index with
  | nil => exact .nil
  | cons hslot _ ih =>
      cases hslot with
      | none => exact ih (index + 1)
      | @some s t hst =>
          rw [inlineFrom, inlineFrom, hst.reference]
          split
          · exact ih (index + 1)
          · rename_i href
            refine .cons ⟨rfl, hst.tags ?_⟩ (ih (index + 1))
            rw [hst.reference]
            simpa using href

end

namespace Union

variable {u u' : Union}

/-- **Unions whose branches have the same roles are judged alike.** -/
theorem judgedAlike_of_sameRole (hplace : u.place = u'.place) (hkeyword : u.keyword = u'.keyword)
    (h : List.Forall₂ (Option.Rel Schema.SameRole) u.branches u'.branches) : u.JudgedAlike u' := by
  have variants : List.Forall₂ SameTags u.variants u'.variants := sameTags_inlineFrom h 0
  have tags : ∀ field, (u.variants.map fun v => v.2.tag? field) =
      u'.variants.map fun v => v.2.tag? field := map_tag?_eq_of_sameTags variants
  have tagged : u.isTaggedBy = u'.isTaggedBy := by
    funext field
    have : u.tags field = u'.tags field := by
      simpa [Union.tags, List.filterMap_map] using congrArg (List.filterMap id) (tags field)
    rw [isTaggedBy, isTaggedBy, this, variants.length_eq]
  have tagField : u.tagField? = u'.tagField? := by
    funext fields
    have empty : u.variants.isEmpty = u'.variants.isEmpty := by
      rw [Bool.eq_iff_iff, List.isEmpty_iff_length_eq_zero, List.isEmpty_iff_length_eq_zero,
        variants.length_eq]
    rw [tagField?, tagField?, h.length_eq, tagged, empty]
  have attempted : u.attemptedField? = u'.attemptedField? := by
    funext fields
    have count : ∀ field, (u.variants.countP fun v => (v.2.tag? field).isSome) =
        u'.variants.countP fun v => (v.2.tag? field).isSome := by
      intro field
      simpa [List.countP_map, Function.comp_def] using
        congrArg (List.countP Option.isSome) (tags field)
    simp only [attemptedField?, count]
  have verdict : u.verdict = u'.verdict := by
    funext fields
    rw [Union.verdict, Union.verdict, isNullable_eq_of_sameRole h,
      isReferencesOnly_eq_of_sameRole h, isReferencePair_eq_of_sameRole h, h.length_eq, tagField,
      attempted]
  have scan : ∀ field, tagFindings u.place field [] u.variants =
      tagFindings u'.place field [] u'.variants := by
    intro field
    rw [hplace]
    exact tagFindings_eq_of_sameTags variants _ field []
  refine ⟨?_, fun fields => ?_⟩
  · rw [isExamined, isExamined, isNullable_eq_of_sameRole h, isReferencesOnly_eq_of_sameRole h]
  · have attempt : u.attemptFindings = u'.attemptFindings := by
      funext attempt
      cases attempt with
      | none => rfl
      | some field => exact scan field
    rw [verdict]
    cases u'.verdict fields with
    | tagged field => exact scan field
    | untagged attempted => simp only [verdictFindings, attempt, hplace, hkeyword]
    | referencePair attempted => simp only [verdictFindings, attempt]
    | _ => rfl

end Union

end SchemaAudit
