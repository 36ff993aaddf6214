/-
**Reports in JSON are lossless.**

Reports that are shown as JSON can be read again as a document is read: what comes back holds every
issue with its code, severity, path and message, and with a suggestion and the name of a definition
exactly where the issue has them, whatever characters their texts are made of.  As nothing is lost,
different reports never look the same.

Main definitions:

* `Issue.HeldBy`, `Report.HeldBy` — **a value that says all that an issue, or a report, says**;
* `Report.AllHeldBy` — a value for several reports: unless there is just one, an array.

Main results:

* `Report.HeldBy.unique` — no value holds two different reports;
* `OutputFormat.toJson_readable`, `OutputFormat.toJson_keysDistinct` — the value of reports is among
  those that are read back;
* `OutputFormat.json_lossless` — **what is shown as JSON is read back, and nothing is lost**.
-/

import SchemaAudit.Proofs.ReadBack
import SchemaAudit.Output
import SchemaAudit.Source

set_option relaxedAutoImplicit false
set_option autoImplicit false

namespace SchemaAudit

open Json

/-! ### What a value says -/

/-- **The value says all that the issue says.** There is a suggestion, or the name of a definition,
exactly where the issue has one. -/
structure Issue.HeldBy (issue : Issue) (value : Value) : Prop where
  code : value.member? "code" = some (.string issue.code.name)
  severity : value.member? "severity" = some (.string issue.severity.name)
  path : value.member? "path" = some (.string issue.path)
  message : value.member? "message" = some (.string issue.message)
  suggestion : value.member? "suggestion" = issue.suggestion.map .string
  typeName : value.member? "type_name" = issue.typeName.map .string

/-- **The value says all that the report says**, its issues in their order. -/
structure Report.HeldBy (report : Report) (value : Value) : Prop where
  schemaPath : value.member? "schema_path" = some (.string report.schemaPath)
  issues : ∃ items, value.member? "issues" = some (.array items) ∧
    List.Forall₂ Issue.HeldBy report.issues items

/-- The value says all that the reports say: the only report, or each of them in an array. -/
def Report.AllHeldBy : List Report → Value → Prop
  | [report], value => report.HeldBy value
  | reports, value => ∃ items, value = .array items ∧ List.Forall₂ Report.HeldBy reports items

/-! ### No value holds two different reports -/

theorem Code.name_injective : Function.Injective Code.name := by
  intro code other
  cases code <;> cases other <;> decide

theorem Severity.name_injective : Function.Injective Severity.name := by
  intro severity other
  cases severity <;> cases other <;> decide

theorem map_string_injective : Function.Injective (Option.map Value.string) :=
  Option.map_injective fun _ _ h => Value.string.inj h

theorem Issue.HeldBy.unique {issue other : Issue} {value : Value} (h : issue.HeldBy value)
    (h' : other.HeldBy value) : issue = other := by
  have text : ∀ {s t : String} {member : Option Value}, member = some (.string s) →
      member = some (.string t) → s = t := by
    rintro s t member rfl h
    exact Value.string.inj (Option.some.inj h)
  obtain ⟨code, severity, path, message, suggestion, typeName⟩ := h
  obtain ⟨code', severity', path', message', suggestion', typeName'⟩ := h'
  rw [Issue.mk.injEq]
  exact ⟨Code.name_injective (text code code'), Severity.name_injective (text severity severity'),
    text path path', text message message', map_string_injective (suggestion ▸ suggestion'),
    map_string_injective (typeName ▸ typeName')⟩

/-- **No value holds two different reports.** -/
theorem Report.HeldBy.unique {report other : Report} {value : Value} (h : report.HeldBy value)
    (h' : other.HeldBy value) : report = other := by
  have unique : Relator.LeftUnique Issue.HeldBy := fun _ _ _ h h' => h.unique h'
  obtain ⟨path, items, hitems, issues⟩ := h
  obtain ⟨path', items', hitems', issues'⟩ := h'
  rw [path, Option.some.injEq, Value.string.injEq] at path'
  rw [hitems, Option.some.injEq, Value.array.injEq] at hitems'
  subst hitems'
  rw [Report.mk.injEq]
  exact ⟨path', List.left_unique_forall₂' unique issues issues'⟩

theorem Report.not_heldBy_array {report : Report} {items : List Value} :
    ¬report.HeldBy (.array items) := fun h => nomatch h.schemaPath

theorem Report.allHeldBy_iff {reports : List Report} {value : Value} :
    AllHeldBy reports value ↔
      (∃ report, reports = [report] ∧ report.HeldBy value) ∨
        (reports.length ≠ 1 ∧
          ∃ items, value = .array items ∧ List.Forall₂ Report.HeldBy reports items) := by
  match reports with
  | [report] => simp [AllHeldBy]
  | [] => simp [AllHeldBy]
  | first :: second :: rest => simp [AllHeldBy]

/-- No value holds two different lists of reports. -/
theorem Report.AllHeldBy.unique {reports others : List Report} {value : Value}
    (h : AllHeldBy reports value) (h' : AllHeldBy others value) : reports = others := by
  have unique : Relator.LeftUnique Report.HeldBy := fun _ _ _ h h' => h.unique h'
  rcases allHeldBy_iff.1 h with ⟨report, rfl, hreport⟩ | ⟨-, items, rfl, hitems⟩
  · rcases allHeldBy_iff.1 h' with ⟨other, rfl, hother⟩ | ⟨-, items, rfl, -⟩
    · rw [hreport.unique hother]
    · exact (not_heldBy_array hreport).elim
  · rcases allHeldBy_iff.1 h' with ⟨other, rfl, hother⟩ | ⟨-, items', hvalue, hitems'⟩
    · exact (not_heldBy_array hother).elim
    · obtain rfl := Value.array.inj hvalue
      exact List.left_unique_forall₂' unique hitems hitems'

/-! ### The values of reports -/

theorem Issue.heldBy_json (issue : Issue) : issue.HeldBy issue.json := by
  obtain ⟨code, severity, path, message, suggestion, typeName⟩ := issue
  cases suggestion <;> cases typeName <;> exact ⟨rfl, rfl, rfl, rfl, rfl, rfl⟩

theorem Report.heldBy_json (report : Report) : report.HeldBy report.json := by
  refine ⟨rfl, report.issues.map Issue.json, rfl, ?_⟩
  rw [List.forall₂_map_right_iff, List.forall₂_same]
  exact fun issue _ => issue.heldBy_json

theorem OutputFormat.allHeldBy_toJson (reports : List Report) :
    Report.AllHeldBy reports (toJson reports) := by
  have all : List.Forall₂ Report.HeldBy reports (reports.map Report.json) := by
    rw [List.forall₂_map_right_iff, List.forall₂_same]
    exact fun report _ => report.heldBy_json
  match reports with
  | [report] => exact report.heldBy_json
  | [] => exact ⟨_, rfl, all⟩
  | first :: second :: rest => exact ⟨_, rfl, all⟩

theorem Issue.json_keysDistinct (issue : Issue) : issue.json.KeysDistinct := by
  obtain ⟨code, severity, path, message, suggestion, typeName⟩ := issue
  cases suggestion <;> cases typeName <;> simp [json, optionalMember]

theorem Report.json_keysDistinct (report : Report) : report.json.KeysDistinct := by
  simp [json, Issue.json_keysDistinct]

/-- The keys of reports are distinct, in every object. -/
theorem OutputFormat.toJson_keysDistinct (reports : List Report) :
    (toJson reports).KeysDistinct := by
  unfold toJson
  split
  · exact Report.json_keysDistinct _
  · simp [Report.json_keysDistinct]

theorem Issue.json_readable (depth : ℕ) (issue : Issue) : issue.json.Readable (depth + 1) := by
  have optional : ∀ (key : String) (text : Option String), ∀ m ∈ optionalMember key text,
      m.2.Readable depth := by
    intro key text m hm
    cases text with
    | none => cases hm
    | some text =>
        rw [List.mem_singleton.1 hm]
        exact .string text
  refine .object fun m hm => ?_
  rcases List.mem_append.1 hm with hm | hm
  · rcases List.mem_append.1 hm with hm | hm
    · simp only [List.mem_cons, List.not_mem_nil, or_false] at hm
      rcases hm with rfl | rfl | rfl | rfl <;> exact .string _
    · exact optional _ _ m hm
  · exact optional _ _ m hm

theorem Report.json_readable (depth : ℕ) (report : Report) :
    report.json.Readable (depth + 3) := by
  refine .object fun m hm => ?_
  simp only [List.mem_cons, List.not_mem_nil, or_false] at hm
  rcases hm with rfl | rfl
  · exact .string _
  · refine .array fun item hitem => ?_
    obtain ⟨issue, -, rfl⟩ := List.mem_map.1 hitem
    exact issue.json_readable depth

/-- Reports nest no more than four containers and hold no numbers. -/
theorem OutputFormat.toJson_readable (depth : ℕ) (reports : List Report) :
    (toJson reports).Readable (depth + 4) := by
  unfold toJson
  split
  · exact Report.json_readable (depth + 1) _
  · refine .array fun item hitem => ?_
    obtain ⟨report, -, rfl⟩ := List.mem_map.1 hitem
    exact report.json_readable depth

/-! ### Shown and read again -/

theorem OutputFormat.parseText_render_json (around : Surroundings) (reports : List Report) :
    parseText around (OutputFormat.json.render reports) = .ok (toJson reports) := by
  have read := Value.ofText?_pretty (toJson_readable 123 reports) (toJson_keysDistinct reports)
  rw [parseText, render, read]

/-- **Reports in JSON are lossless.** Any reports, with any texts, are read back from what is shown
of them, and what is read says all that they say: the only report as an object, any other number of
reports as an array in their order.  Hence different reports are never shown alike. -/
theorem OutputFormat.json_lossless (around : Surroundings) (reports : List Report) :
    (∃ value, parseText around (OutputFormat.json.render reports) = .ok value ∧
      Report.AllHeldBy reports value) ∧
    ∀ others, OutputFormat.json.render others = OutputFormat.json.render reports →
      others = reports := by
  refine ⟨⟨_, parseText_render_json around reports, allHeldBy_toJson reports⟩, fun others h => ?_⟩
  have same : (.ok (toJson others) : Except Failure Value) = .ok (toJson reports) := by
    rw [← parseText_render_json around, h, parseText_render_json]
  have held := allHeldBy_toJson others
  rw [Except.ok.inj same] at held
  exact held.unique (allHeldBy_toJson reports)

end SchemaAudit
