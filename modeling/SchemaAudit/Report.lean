/-
**Issues and reports.**

* `Severity`, `Code` — how grave an issue is and what kind of problem it reports;
* `Issue` — a finding in the words in which it is shown;
* `Report` — the issues of one document, in the order in which they were found;
* `Status` — the outcome of a report. An outcome is worse than another one in the order
  ok, warning, error.
-/

set_option relaxedAutoImplicit false
set_option autoImplicit false

namespace SchemaAudit

/-! ### Issues -/

/-- How grave an issue is. -/
inductive Severity where
  | error
  | warning
  | info
deriving DecidableEq, Inhabited

/-- The name of a severity. -/
def Severity.name : Severity → String
  | .error => "error"
  | .warning => "warning"
  | .info => "info"

/-- The severities, gravest first. -/
def Severity.all : List Severity := [.error, .warning, .info]

/-- The kinds of problem. Some of them are reserved: reports may hold them, but no rule finds
them. -/
inductive Code where
  | unionNoDiscriminator
  /-- Reserved. -/
  | inconsistentDiscriminator
  | missingConst
  | duplicateConstValue
  | invalidPropertyCase
  | largeUnion
  | nestedUnion
  | additionalProperties
  /-- Reserved. -/
  | ambiguousUnion
  /-- Reserved. -/
  | circularReference
  | compositionDisallowed
  | additionalPropertiesDisallowed
  | missingType
  | mixedTypeDisallowed
deriving DecidableEq, Inhabited

/-- The name of a code. -/
def Code.name : Code → String
  | .unionNoDiscriminator => "union-no-discriminator"
  | .inconsistentDiscriminator => "inconsistent-discriminator"
  | .missingConst => "missing-const"
  | .duplicateConstValue => "duplicate-const-value"
  | .invalidPropertyCase => "invalid-property-case"
  | .largeUnion => "large-union"
  | .nestedUnion => "nested-union"
  | .additionalProperties => "additional-properties"
  | .ambiguousUnion => "ambiguous-union"
  | .circularReference => "circular-reference"
  | .compositionDisallowed => "composition-disallowed"
  | .additionalPropertiesDisallowed => "additional-properties-disallowed"
  | .missingType => "missing-type"
  | .mixedTypeDisallowed => "mixed-type-disallowed"

/-- All codes. -/
def Code.all : List Code :=
  [.unionNoDiscriminator, .inconsistentDiscriminator, .missingConst, .duplicateConstValue,
    .invalidPropertyCase, .largeUnion, .nestedUnion, .additionalProperties, .ambiguousUnion,
    .circularReference, .compositionDisallowed, .additionalPropertiesDisallowed, .missingType,
    .mixedTypeDisallowed]

theorem Code.mem_all (code : Code) : code ∈ Code.all := by
  cases code <;> simp [all]

/-- A finding in the words in which it is shown. -/
structure Issue where
  code : Code
  severity : Severity
  /-- The place in the document, as in `$/$defs/Animal/anyOf/1`. -/
  path : String
  message : String
  /-- What to do about it. -/
  suggestion : Option String := none
  /-- The definition under which it was found. -/
  typeName : Option String := none
deriving DecidableEq, Inhabited

/-! ### Outcomes -/

/-- The outcome of a report. -/
inductive Status where
  /-- There are neither errors nor warnings. -/
  | ok
  /-- There are warnings, but no errors. -/
  | warning
  | error
deriving DecidableEq, Inhabited

namespace Status

/-- The name of an outcome. -/
def name : Status → String
  | .ok => "ok"
  | .warning => "warning"
  | .error => "error"

/-- The outcomes, best first. -/
def all : List Status := [.ok, .warning, .error]

/-- The exit code of a program that ends with an outcome. -/
def exitCode : Status → Nat
  | .ok => 0
  | .warning => 2
  | .error => 1

/-- The worse of two outcomes. -/
def max : Status → Status → Status
  | .error, _ | _, .error => .error
  | .warning, _ | _, .warning => .warning
  | .ok, .ok => .ok

/-- The worst of several outcomes. -/
def worst (outcomes : List Status) : Status := outcomes.foldr max .ok

end Status

/-! ### Reports -/

/-- The issues of one document. -/
structure Report where
  /-- The path or source of the document, as it was asked for. -/
  schemaPath : String := ""
  /-- The issues, in the order in which they were found. -/
  issues : List Issue := []
deriving DecidableEq, Inhabited

namespace Report

/-- Adds an issue at the end. -/
def push (report : Report) (issue : Issue) : Report :=
  { report with issues := report.issues ++ [issue] }

/-- The number of issues of a severity. -/
def count (report : Report) (severity : Severity) : Nat :=
  report.issues.countP fun issue => issue.severity == severity

/-- Whether there is an issue of a severity. -/
def has (report : Report) (severity : Severity) : Bool := 0 < report.count severity

/-- Whether there are no issues at all. -/
def isClean (report : Report) : Bool := report.issues.isEmpty

/-- The outcome of a report; issues that are mere information do not count. -/
def status (report : Report) : Status :=
  if report.has .error then .error
  else if report.has .warning then .warning
  else .ok

/-- The worst outcome of several reports. -/
def worstStatus (reports : List Report) : Status := Status.worst (reports.map status)

end Report

end SchemaAudit
