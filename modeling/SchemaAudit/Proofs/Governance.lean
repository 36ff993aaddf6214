/-
**What a setting governs.**

Every setting but the list of tags has codes of its own: the profile those of the scale profile, the
naming convention that of misnamed properties, and each limit the code of the unions beyond it.  A
setting decides what is said with its codes and nothing else.  No check keeps another one from being
made, and none decides where the walk goes on.

Main definitions:

* `Config.governed` — **the codes governed by the settings in which two configurations differ**.

Main results:

* `Visit.filter_findings_eq` — at every stop two configurations find the same, but for these codes;
* `Document.ungoverned_issues_eq` — **so they do in every document**, and the findings of the
  standard profile are those of the scale profile without its own codes.
-/

import SchemaAudit.Proofs.BranchOrder

set_option relaxedAutoImplicit false
set_option autoImplicit false

namespace SchemaAudit

/-! ### Settings and their codes -/

namespace Config

/-- **The codes governed by the settings in which two configurations differ**, the lists of tags
aside. -/
def governed (a b : Config) : List Code :=
  (if a.profile = b.profile then []
    else [.compositionDisallowed, .additionalPropertiesDisallowed, .missingType,
      .mixedTypeDisallowed]) ++
    (if a.naming = b.naming then [] else [.invalidPropertyCase]) ++
    (if a.maxUnionVariants = b.maxUnionVariants then [] else [.largeUnion]) ++
    (if a.maxUnionDepth = b.maxUnionDepth then [] else [.nestedUnion])

variable {a b : Config} {code : Code}

theorem mem_governed_iff :
    code ∈ a.governed b ↔
      (a.profile ≠ b.profile ∧ code ∈ Code.ofScale) ∨
        (a.naming ≠ b.naming ∧ code = .invalidPropertyCase) ∨
        (a.maxUnionVariants ≠ b.maxUnionVariants ∧ code = .largeUnion) ∨
        (a.maxUnionDepth ≠ b.maxUnionDepth ∧ code = .nestedUnion) := by
  have part : ∀ (p : Prop) [Decidable p] (codes : List Code),
      code ∈ (if p then [] else codes) ↔ ¬p ∧ code ∈ codes := by
    intro p _ codes
    split <;> simp_all
  simp only [governed, List.mem_append, part, List.mem_singleton, or_assoc, Code.ofScale, ne_eq]

/-- Two profiles govern the codes of the scale profile. -/
theorem governed_profile (config : Config) :
    governed { config with profile := .standard } { config with profile := .scale } =
      Code.ofScale := by
  simp [governed, Code.ofScale]

end Config

/-! ### One stop of the walk -/

variable {a b : Config}

/-- What is the same, or governed on both sides, is the same but for what is governed. -/
theorem filter_ungoverned_eq {codes : List Code} {l l' : List Finding}
    (h : l = l' ∨ ∀ f ∈ l ++ l', f.problem.code ∈ codes) :
    l.filter (fun f => f.problem.code ∉ codes) = l'.filter (fun f => f.problem.code ∉ codes) := by
  rcases h with rfl | h
  · rfl
  · rw [filter_eq_nil_of_forall fun f hf => by simp [h f (List.mem_append_left _ hf)],
      filter_eq_nil_of_forall fun f hf => by simp [h f (List.mem_append_right _ hf)]]

/-- A check against a setting finds the same, unless the setting differs and governs the code. -/
theorem filter_findIf_eq {α : Type} {codes : List Code} {x y : α} (condition : α → Bool)
    (place : Place) (problem : α → Problem) (h : x ≠ y → ∀ z, (problem z).code ∈ codes) :
    (findIf (condition x) place (problem x)).filter (fun f => f.problem.code ∉ codes) =
      (findIf (condition y) place (problem y)).filter (fun f => f.problem.code ∉ codes) := by
  refine filter_ungoverned_eq (or_iff_not_imp_left.2 fun hne f hf => ?_)
  have hcodes := h fun heq => hne (by rw [heq])
  rcases List.mem_append.1 hf with hf | hf
  · rw [(mem_findIf_iff.1 hf).2]
    exact hcodes x
  · rw [(mem_findIf_iff.1 hf).2]
    exact hcodes y

/-- The limits of a union govern what is said about its size and its nesting, and nothing else. -/
theorem Union.filter_findings_eq (h : a.tagFields = b.tagFields) (u : Union) :
    (u.findings a).filter (fun f => f.problem.code ∉ a.governed b) =
      (u.findings b).filter (fun f => f.problem.code ∉ a.governed b) := by
  rw [findings, findings]
  split
  · simp only [List.filter_append, h]
    refine congrArg₂ (· ++ ·) (congrArg₂ (· ++ ·) (congrArg₂ (· ++ ·) ?_ ?_) rfl) rfl
    · refine filter_findIf_eq (fun limit : Nat => limit < u.branches.length) u.place
        (.largeUnion u.branches.length) fun hne limit => ?_
      exact Config.mem_governed_iff.2 (.inr (.inr (.inl ⟨hne, rfl⟩)))
    · refine filter_findIf_eq (fun limit : Nat => limit ≤ u.depth) u.place
        (.nestedUnion (u.depth + 1)) fun hne limit => ?_
      exact Config.mem_governed_iff.2 (.inr (.inr (.inr ⟨hne, rfl⟩)))
  · rfl

/-- **At every stop two configurations find the same, but for the codes governed by the settings in
which they differ.** -/
theorem Visit.filter_findings_eq (h : a.tagFields = b.tagFields) (v : Visit) :
    (v.findings a).filter (fun f => f.problem.code ∉ a.governed b) =
      (v.findings b).filter (fun f => f.problem.code ∉ a.governed b) := by
  cases v with
  | schema place s =>
      have scale : ∀ {config : Config} {f : Finding}, f ∈ (Visit.schema place s).findings config →
          f.problem.code ∈ Code.ofScale := by
        intro config f hf
        rw [findings] at hf
        split at hf
        · exact code_of_mem_scaleFindings hf
        · cases hf
      refine filter_ungoverned_eq (or_iff_not_imp_left.2 fun hne f hf => ?_)
      refine Config.mem_governed_iff.2 (.inl ⟨fun heq => hne ?_, ?_⟩)
      · rw [findings, findings, Config.isScale, Config.isScale, heq]
      · exact (List.mem_append.1 hf).elim scale scale
  | union u => exact u.filter_findings_eq h
  | names place names =>
      refine filter_ungoverned_eq (or_iff_not_imp_left.2 fun hne f hf => ?_)
      refine Config.mem_governed_iff.2 (.inr (.inl ⟨fun heq => hne ?_, ?_⟩))
      · rw [findings, findings, heq]
      · exact (List.mem_append.1 hf).elim code_of_mem_nameFindings code_of_mem_nameFindings

/-! ### Documents -/

namespace Document

theorem filter_ungoverned_findings_eq (h : a.tagFields = b.tagFields) (d : Document) :
    (d.findings a).filter (fun f => f.problem.code ∉ a.governed b) =
      (d.findings b).filter (fun f => f.problem.code ∉ a.governed b) := by
  rw [findings, findings, List.filter_flatMap, List.filter_flatMap]
  exact List.flatMap_congr fun v _ => v.filter_findings_eq h

/-- Without the scale profile nothing is said with its codes. -/
theorem not_mem_ofScale_of_mem_findings {config : Config} (hscale : config.isScale = false)
    {d : Document} {f : Finding} (h : f ∈ d.findings config) :
    f.problem.code ∉ Code.ofScale := by
  obtain ⟨v, -, hf⟩ := List.mem_flatMap.1 h
  cases v with
  | schema place s => simp [Visit.findings, hscale] at hf
  | union u =>
      exact Code.not_mem_ofScale_of_mem_ofUnions
        (Union.finds_of_mem_findings (show f ∈ u.findings config from hf)).code_mem
  | names place names =>
      rw [code_of_mem_nameFindings hf]
      decide

/-- **Settings govern only their own codes.**  Two configurations that may tag unions by the same
properties have the same issues in the same order, once the codes are left out that are governed by
the settings in which they differ.  In particular the standard profile finds what the scale profile
does, without the codes of the latter. -/
theorem ungoverned_issues_eq (h : a.tagFields = b.tagFields) (d : Document) :
    (d.audit a).issues.filter (fun issue => issue.code ∉ a.governed b) =
        (d.audit b).issues.filter (fun issue => issue.code ∉ a.governed b) ∧
      (d.audit { a with profile := .standard }).issues =
        (d.audit { a with profile := .scale }).issues.filter
          (fun issue => issue.code ∉ Code.ofScale) := by
  refine ⟨?_, ?_⟩
  · rw [filter_issues a d (fun code => code ∉ a.governed b),
      filter_issues b d (fun code => code ∉ a.governed b), filter_ungoverned_findings_eq h]
  · have profiles := filter_ungoverned_findings_eq
      (a := { a with profile := .standard }) (b := { a with profile := .scale }) rfl d
    rw [Config.governed_profile] at profiles
    rw [filter_issues _ d (fun code => code ∉ Code.ofScale), ← profiles, audit,
      List.filter_eq_self.2 fun f hf => decide_eq_true (not_mem_ofScale_of_mem_findings rfl hf)]

end Document

/-- A configuration under which little is let pass. -/
def Config.strict : Config where
  profile := .scale
  naming := .pascal
  maxUnionVariants := 1
  maxUnionDepth := 0

/-- All settings but the tags differ, and so do the issues; what none of these settings governs is
found all the same. -/
theorem Document.ungoverned_issues_eq_strict :
    (({} : Config).tagFields = Config.strict.tagFields ∧
        (tagThenChoice.audit {}).issues ≠ (tagThenChoice.audit .strict).issues) ∧
      (tagThenChoice.audit {}).issues.filter
          (fun issue => issue.code ∉ ({} : Config).governed .strict) =
        (tagThenChoice.audit .strict).issues.filter
          (fun issue => issue.code ∉ ({} : Config).governed .strict) :=
  ⟨⟨rfl, by decide⟩, (ungoverned_issues_eq (a := {}) (b := .strict) rfl tagThenChoice).1⟩

end SchemaAudit
