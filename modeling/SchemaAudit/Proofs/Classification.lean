/-
**Every finding is well classified.**

The checks are many and report from everywhere in a document, but they classify alike.  The code of
an issue prescribes its severity, some codes are bound to a setting, every issue says what to do,
and an issue bears the name of a definition exactly when it was found on the walk that started
there.

Main definitions:

* `Code.severity?` — **the severity that a code prescribes**; a reserved code prescribes none;
* `Issue.Classified` — an issue that may be reported under a configuration;
* `Document.FindsUnder` — the findings of the walk from the definitions of a name.

Main results:

* `Document.classified_of_mem_findings` — the findings of a document are classified;
* `Document.typeName_eq_some_iff` — the name on an issue is that of the definition above it;
* `Report.status_eq_ok_iff` — which reports have the best outcome;
* `Document.issues_well_classified` — **all of this, for the report on a document**.
-/

import SchemaAudit.Proofs.Governance
import SchemaAudit.Proofs.LintRuns

set_option relaxedAutoImplicit false
set_option autoImplicit false

namespace SchemaAudit

/-! ### Codes and severities -/

namespace Code

/-- The codes that no rule uses. -/
def reserved : List Code := [.inconsistentDiscriminator, .ambiguousUnion, .circularReference]

/-- **The severity that a code prescribes.** -/
def severity? : Code → Option Severity
  | .largeUnion | .nestedUnion | .additionalProperties => some .warning
  | .unionNoDiscriminator | .missingConst | .duplicateConstValue | .invalidPropertyCase
  | .compositionDisallowed | .additionalPropertiesDisallowed | .missingType
  | .mixedTypeDisallowed => some .error
  | .inconsistentDiscriminator | .ambiguousUnion | .circularReference => none

theorem notMem_reserved_of_severity? {code : Code} {severity : Severity}
    (h : code.severity? = some severity) : code ∉ reserved := by
  intro hcode
  simp only [reserved, List.mem_cons, List.not_mem_nil, or_false] at hcode
  rcases hcode with rfl | rfl | rfl <;> cases h

theorem severity?_ne_info (code : Code) : code.severity? ≠ some .info := by
  cases code <;> decide

end Code

/-- A problem is as grave as its code prescribes. -/
theorem Problem.severity?_code (problem : Problem) :
    problem.code.severity? = some problem.severity := by
  cases problem <;> rfl

/-! ### Classified issues -/

/-- **The issue may be reported under the configuration**, as it is classified. -/
structure Issue.Classified (config : Config) (issue : Issue) : Prop where
  /-- The issue says what to do. -/
  suggestion : issue.suggestion.isSome = true
  /-- It is as grave as its code prescribes. -/
  severity : issue.code.severity? = some issue.severity
  notMem_reserved : issue.code ∉ Code.reserved
  severity_ne_info : issue.severity ≠ .info
  /-- Codes of the scale profile are for the scale profile. -/
  profile : issue.code ∈ Code.ofScale → config.profile = .scale
  /-- A property is misnamed only where there is a convention. -/
  naming : issue.code = .invalidPropertyCase → config.naming ≠ .any

namespace Document

variable {config : Config} {d : Document} {f : Finding}

theorem naming_ne_any_of_mem_findings (h : f ∈ d.findings config)
    (hcode : f.problem.code = .invalidPropertyCase) : config.naming ≠ .any := by
  obtain ⟨place, names, -, hf⟩ := exists_names_of_mem_findings h hcode
  obtain ⟨name, -, hf⟩ := List.mem_flatMap.1 hf
  obtain ⟨hname, -⟩ := mem_findIf_iff.1 hf
  intro hany
  rw [hany] at hname
  cases hname

/-- **The findings of a document are classified**, at whichever stop they are made. -/
theorem classified_of_mem_findings (h : f ∈ d.findings config) : f.issue.Classified config := by
  have severity : f.issue.code.severity? = some f.issue.severity := f.problem.severity?_code
  refine ⟨rfl, severity, Code.notMem_reserved_of_severity? severity, fun hinfo => ?_,
    fun hcode => ?_, naming_ne_any_of_mem_findings h⟩
  · exact Code.severity?_ne_info f.issue.code (hinfo ▸ severity)
  · by_contra hprofile
    have hscale : config.isScale = false := by simpa [Config.isScale] using hprofile
    exact not_mem_ofScale_of_mem_findings hscale h hcode

/-! ### Names of definitions -/

/-- The walks from the definitions of this name, in either group, find this. -/
def FindsUnder (d : Document) (config : Config) (name : String) (f : Finding) : Prop :=
  ∃ group s, (name, some s) ∈ d.entries group ∧
    ∃ v ∈ s.visits (.origin (.definition group name)) 0, f ∈ v.findings config

/-- What a walk finds stands where the walk started. -/
theorem start_of_mem_visits {origin : Origin} {s : Schema} {v : Visit}
    (hv : v ∈ s.visits (.origin origin) 0) (hf : f ∈ v.findings config) :
    f.place.start = origin := by
  have under := (Site.under_of_mem_visits (x := ⟨.origin origin, 0, s⟩) hv).start_eq
  rw [Visit.label_eq_of_mem_findings hf, Code.start_label] at under
  exact under

/-- **The name on an issue is that of the definition under which it was found.** -/
theorem typeName_eq_some_iff (h : f ∈ d.findings config) {name : String} :
    f.issue.typeName = some name ↔ d.FindsUnder config name f := by
  constructor
  · intro hname
    obtain ⟨v, hv, hf⟩ := List.mem_flatMap.1 h
    obtain ⟨root, hroot, hv⟩ := List.mem_flatMap.1 hv
    have start : f.issue.typeName = root.1.typeName? :=
      congrArg Origin.typeName? (start_of_mem_visits hv hf)
    rw [hname] at start
    rcases mem_roots_iff.1 hroot with rfl | ⟨group, other, s, hs, rfl⟩
    · cases start
    · obtain rfl := Option.some.inj start
      exact ⟨group, s, hs, v, hv, hf⟩
  · rintro ⟨group, s, -, v, hv, hf⟩
    exact congrArg Origin.typeName? (start_of_mem_visits hv hf)

end Document

/-! ### Outcomes -/

/-- Nothing but mere information gives the best outcome. -/
theorem Report.status_eq_ok_iff {report : Report} :
    report.status = .ok ↔ ∀ issue ∈ report.issues, issue.severity = .info := by
  have info : ∀ severity : Severity, severity = .info ↔ severity ≠ .error ∧ severity ≠ .warning := by
    intro severity
    cases severity <;> simp
  have none : report.status = .ok ↔ ¬report.has .error = true ∧ ¬report.has .warning = true := by
    rw [status]
    split <;> simp_all
  rw [none, has_iff, has_iff]
  simp only [not_exists, not_and, info, ← forall_and]

/-- Where nothing is mere information, the best outcome is that of a clean report. -/
theorem Report.status_eq_ok_iff_isClean {report : Report}
    (h : ∀ issue ∈ report.issues, issue.severity ≠ .info) :
    report.status = .ok ↔ report.isClean = true := by
  rw [status_eq_ok_iff, isClean, List.isEmpty_iff, List.eq_nil_iff_forall_not_mem]
  exact forall₂_congr fun issue hissue => by simp [h issue hissue]

namespace Document

/-- **Every finding is well classified.**  Each issue on a document says what to do, is as grave as
its code prescribes, and has a code that the configuration permits; it reports a finding and bears
the name of a definition exactly when the finding was made under it.  Hence, whatever the document
is called, the outcome is the best one exactly when there are no issues. -/
theorem issues_well_classified (config : Config) (d : Document) :
    (∀ issue ∈ (d.audit config).issues, issue.Classified config) ∧
      List.Forall₂ (fun issue f => issue = f.issue ∧
          ∀ name, issue.typeName = some name ↔ d.FindsUnder config name f)
        (d.audit config).issues (d.findings config) ∧
      ∀ path, ({ d.audit config with schemaPath := path }).status = .ok ↔
        ({ d.audit config with schemaPath := path }).isClean = true := by
  have classified : ∀ issue ∈ (d.audit config).issues, issue.Classified config := by
    intro issue hissue
    obtain ⟨f, hf, rfl⟩ := List.mem_map.1 hissue
    exact classified_of_mem_findings hf
  refine ⟨classified, ?_, fun path => ?_⟩
  · rw [audit, List.forall₂_map_left_iff, List.forall₂_same]
    exact fun f hf => ⟨rfl, fun name => typeName_eq_some_iff hf⟩
  · exact Report.status_eq_ok_iff_isClean fun issue hissue =>
      (classified issue hissue).severity_ne_info

end Document

end SchemaAudit
