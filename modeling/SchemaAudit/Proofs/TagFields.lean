/-
**More fields that may tag a union, fewer unions without a tag.**

Which of the fields in the list wins, and which one is taken for the one that was meant, depends on
their order.  Whether a union has a tag does not: the list only matters as a set, and a larger set
leaves fewer unions without one.  Nothing else that is said about a document has to do with the
list, and a field that tells the branches of a union apart silences the scan of its branches,
whichever other fields stand in front of it.

Main definitions:

* `Code.ofVerdicts` — the codes of what a verdict has to say.

Main results:

* `Union.filter_verdicts_findings_eq` — at a union the list governs only these codes;
* `Union.Untagged.mono` — with fewer fields, an untagged union stays untagged;
* `Document.tagFields_monotone` — **the list of fields acts monotonically**.
-/

import SchemaAudit.Proofs.Verdicts

set_option relaxedAutoImplicit false
set_option autoImplicit false

namespace SchemaAudit

/-- The codes of what a verdict has to say about a union. -/
def Code.ofVerdicts : List Code := .unionNoDiscriminator :: ofTags

/-! ### One union under two lists -/

namespace Union

variable {u : Union} {fields fields' : List String}

theorem filter_verdicts_verdictFindings (verdict : Verdict) :
    (u.verdictFindings verdict).filter (fun f => f.problem.code ∉ Code.ofVerdicts) = [] := by
  refine filter_eq_nil_of_forall fun f hf => ?_
  have hcode : f.problem.code ∈ Code.ofVerdicts :=
    List.mem_cons.2 (code_of_mem_verdictFindings hf)
  simp [hcode]

/-- **The list governs what a verdict has to say**, and nothing else that is said about a union. -/
theorem filter_verdicts_findings_eq (config : Config) (u : Union) (fields fields' : List String) :
    (u.findings { config with tagFields := fields }).filter
        (fun f => f.problem.code ∉ Code.ofVerdicts) =
      (u.findings { config with tagFields := fields' }).filter
        (fun f => f.problem.code ∉ Code.ofVerdicts) := by
  rw [findings, findings]
  split
  · simp only [List.filter_append, filter_verdicts_verdictFindings]
  · rfl

/-- With fewer fields, an untagged union stays untagged. -/
theorem Untagged.mono (h : u.Untagged fields') (hfields : ∀ field ∈ fields, field ∈ fields') :
    u.Untagged fields :=
  ⟨h.1, h.2.1, fun field hfield => h.2.2 field (hfields field hfield)⟩

/-- A union that is reported under the longer list is reported under the shorter one. -/
theorem filter_untagged_sublist {a b : Config} (u : Union)
    (h : ∀ field ∈ a.tagFields, field ∈ b.tagFields) :
    ((u.findings b).filter fun f => f.problem.code = .unionNoDiscriminator).Sublist
      ((u.findings a).filter fun f => f.problem.code = .unionNoDiscriminator) := by
  by_cases hu : u.isExamined = true ∧ u.Untagged b.tagFields
  · rw [filter_untagged_of_untagged hu.1 hu.2, filter_untagged_of_untagged hu.1 (hu.2.mono h)]
  · rw [filter_untagged_of_not_untagged hu]
    exact List.nil_sublist _

/-- **Where a field of the list tells the branches apart, no branch breaks a tag.** -/
theorem filter_tags_eq_nil {config : Config} (hu : u.isExamined = true)
    (hfield : ∃ field ∈ config.tagFields, u.DistinguishedBy field) :
    ((u.findings config).filter fun f => f.problem.code ∈ Code.ofTags) = [] := by
  rcases Nat.lt_or_ge u.branches.length 2 with hlength | hlength
  · rw [filter_findings_of_isExamined (p := fun code => code ∈ Code.ofTags) hu rfl rfl rfl,
      verdict_of_length_lt hu hlength, verdictFindings, List.filter_nil]
  · exact filter_tags_of_distinguishedBy hu hlength hfield

end Union

/-! ### Documents -/

namespace Document

theorem filter_verdicts_findings_eq (config : Config) (fields fields' : List String)
    (d : Document) :
    (d.findings { config with tagFields := fields }).filter
        (fun f => f.problem.code ∉ Code.ofVerdicts) =
      (d.findings { config with tagFields := fields' }).filter
        (fun f => f.problem.code ∉ Code.ofVerdicts) := by
  rw [findings, findings, List.filter_flatMap, List.filter_flatMap]
  refine List.flatMap_congr fun v _ => ?_
  cases v with
  | schema place s => rfl
  | union u => exact u.filter_verdicts_findings_eq config fields fields'
  | names place names => rfl

/-- Whatever is reported under the longer list is reported under the shorter one. -/
theorem untagged_issues_sublist {a b : Config} (d : Document)
    (h : ∀ field ∈ a.tagFields, field ∈ b.tagFields) :
    ((d.audit b).issues.filter fun issue => issue.code = .unionNoDiscriminator).Sublist
      ((d.audit a).issues.filter fun issue => issue.code = .unionNoDiscriminator) := by
  have ofUnions : ∀ code, decide (code = Code.unionNoDiscriminator) = true →
      code ∈ Code.ofUnions := by
    intro code hcode
    rw [of_decide_eq_true hcode]
    decide
  rw [filter_issues _ d (fun code => code = .unionNoDiscriminator),
    filter_issues _ d (fun code => code = .unionNoDiscriminator),
    filter_findings _ d ofUnions, filter_findings _ d ofUnions]
  exact (List.Sublist.flatMap_right _ fun u _ => u.filter_untagged_sublist h).map _

/-- What belongs to an examined union does not concern its tag where a field tells its branches
apart. -/
theorem code_notMem_ofTags_of_owner {config : Config} {d : Document} {u : Union}
    (hu : d.Examines u) (hfield : ∃ field ∈ config.tagFields, u.DistinguishedBy field)
    {f : Finding} (hf : f ∈ d.findings config) (howner : f.owner = u.place) :
    f.problem.code ∉ Code.ofTags := by
  intro hcode
  have hunions : f.problem.code ∈ Code.ofUnions := List.mem_append_right _ hcode
  have own : f ∈ u.findings config := by
    rw [← filter_owner config (mem_unions_iff_meets.2 hu.1)]
    simp only [List.mem_filter, decide_eq_true_eq]
    exact ⟨⟨hf, hunions⟩, howner⟩
  have broken : f ∈ (u.findings config).filter fun f => f.problem.code ∈ Code.ofTags :=
    List.mem_filter.2 ⟨own, decide_eq_true hcode⟩
  rw [Union.filter_tags_eq_nil (Union.isExamined_iff.2 hu.2) hfield] at broken
  cases broken

/-- **The list of fields that may tag a union acts monotonically.**  Two configurations that differ
in this list only have the same issues in the same order, the codes of verdicts aside.  If the
second list has all the fields of the first one, in whatever order and number, the unions that it
leaves untagged are among those that the first one does, in their order; so lists of the same fields
leave the same ones.  And where a field of each list tells the branches of a union apart, neither
run says that a branch breaks a tag. -/
theorem tagFields_monotone (config : Config) (fields fields' : List String) (d : Document) :
    (d.audit { config with tagFields := fields }).issues.filter
        (fun issue => issue.code ∉ Code.ofVerdicts) =
      (d.audit { config with tagFields := fields' }).issues.filter
        (fun issue => issue.code ∉ Code.ofVerdicts) ∧
    ((∀ field ∈ fields, field ∈ fields') →
      ((d.audit { config with tagFields := fields' }).issues.filter
          fun issue => issue.code = .unionNoDiscriminator).Sublist
        ((d.audit { config with tagFields := fields }).issues.filter
          fun issue => issue.code = .unionNoDiscriminator)) ∧
    ((∀ field, field ∈ fields ↔ field ∈ fields') →
      ((d.audit { config with tagFields := fields }).issues.filter
          fun issue => issue.code = .unionNoDiscriminator) =
        ((d.audit { config with tagFields := fields' }).issues.filter
          fun issue => issue.code = .unionNoDiscriminator)) ∧
    ∀ u, d.Examines u → (∃ field ∈ fields, u.DistinguishedBy field) →
      (∃ field ∈ fields', u.DistinguishedBy field) →
      ∀ f, f ∈ d.findings { config with tagFields := fields } ++
          d.findings { config with tagFields := fields' } →
        f.owner = u.place → f.problem.code ∉ Code.ofTags := by
  refine ⟨?_, fun h => d.untagged_issues_sublist h, fun h => ?_,
    fun u hu hfield hfield' f hf => ?_⟩
  · rw [filter_issues _ d (fun code => code ∉ Code.ofVerdicts),
      filter_issues _ d (fun code => code ∉ Code.ofVerdicts),
      filter_verdicts_findings_eq config fields fields']
  · exact (d.untagged_issues_sublist fun field => (h field).2).antisymm
      (d.untagged_issues_sublist fun field => (h field).1)
  · rcases List.mem_append.1 hf with hf | hf
    · exact code_notMem_ofTags_of_owner hu hfield hf
    · exact code_notMem_ofTags_of_owner hu hfield' hf

end Document

end SchemaAudit
