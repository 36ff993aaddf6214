/-
**How reports are shown.**

* `Report.text` — a list of issues with a summary; `Report.github` — one workflow command per issue;
* `Report.json` — a report as a JSON value;
* `OutputFormat`, `OutputFormat.render` — the formats, and several reports in one of them.
-/

import SchemaAudit.Report
import SchemaAudit.Json.Printer

set_option relaxedAutoImplicit false
set_option autoImplicit false

namespace SchemaAudit

open Json (Value)

/-! ### One report -/

/-- An issue on one line, and its suggestion on the next. -/
def Issue.text (issue : Issue) : String :=
  "[" ++ issue.severity.name ++ "] " ++ issue.path ++ ": " ++ issue.message ++
    match issue.suggestion with
    | some suggestion => "\n  suggestion: " ++ suggestion
    | none => ""

/-- A report for a reader: its issues and a summary. -/
def Report.text (report : Report) : String :=
  if report.isClean then "✅ No issues found\n"
  else
    String.join (report.issues.map fun issue => issue.text ++ "\n") ++
      "\nSummary: " ++ toString (report.count .error) ++ " error(s), " ++
      toString (report.count .warning) ++ " warning(s)\n"

/-- The level of a workflow command. There is none for mere information. -/
def Severity.githubLevel : Severity → String
  | .error => "error"
  | .warning | .info => "warning"

/-- The workflow command that shows an issue. -/
def Issue.github (schemaPath : String) (issue : Issue) : String :=
  "::" ++ issue.severity.githubLevel ++ " file=" ++ schemaPath ++ "::" ++ issue.code.name ++
    " - " ++ issue.message ++ "\n"

/-- A report as workflow commands. -/
def Report.github (report : Report) : String :=
  String.join (report.issues.map (Issue.github report.schemaPath))

/-- A member with a text, if there is one. -/
def optionalMember (key : String) : Option String → List (String × Value)
  | some text => [(key, .string text)]
  | none => []

/-- An issue as a JSON value. -/
def Issue.json (issue : Issue) : Value :=
  .object <|
    [("code", .string issue.code.name), ("severity", .string issue.severity.name),
      ("path", .string issue.path), ("message", .string issue.message)] ++
    optionalMember "suggestion" issue.suggestion ++
    optionalMember "type_name" issue.typeName

/-- A report as a JSON value. -/
def Report.json (report : Report) : Value :=
  .object
    [("schema_path", .string report.schemaPath),
      ("issues", .array (report.issues.map Issue.json))]

/-! ### Several reports -/

/-- A format in which reports are shown. -/
inductive OutputFormat where
  | text
  | json
  | github
deriving DecidableEq, Inhabited

namespace OutputFormat

/-- The format of a name. -/
def ofName? : String → Option OutputFormat
  | "text" => some .text
  | "json" => some .json
  | "github" => some .github
  | _ => none

/-- Several reports as text. Unless there is just one, each has a heading. -/
def renderText : List Report → String
  | [report] => report.text
  | reports =>
    "\n".intercalate (reports.map fun report => "==> " ++ report.schemaPath ++ "\n" ++ report.text)

/-- Several reports as one JSON value. Unless there is just one, it is an array. -/
def toJson : List Report → Value
  | [report] => report.json
  | reports => .array (reports.map Report.json)

/-- Several reports in a format. -/
def render (format : OutputFormat) (reports : List Report) : String :=
  match format with
  | .text => renderText reports
  | .json => (toJson reports).pretty
  | .github => String.join (reports.map Report.github)

end OutputFormat

end SchemaAudit
