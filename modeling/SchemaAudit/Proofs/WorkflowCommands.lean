/-
**Workflow commands, line by line.**

A report is shown as one workflow command per issue, and a reader takes every line for a command.
A command quotes names and tags of the document as they are, and a line feed in one of them breaks
the command apart: what follows it stands on a line of its own, and may pass for another command.
This module counts the lines, and says when there is one for each issue.

Main definitions:

* `lines` — the lines of a text;
* `Issue.commandHead` — what the command of an issue starts with;
* `Report.OneCommandPerIssue` — **each issue has its line, and the line starts as it should**;
* `Problem.quoted`, `Document.texts` — the texts that a problem quotes, and the texts of a document
  and of its settings that may be quoted.

Main results:

* `Report.length_lines_github` — how many lines there are;
* `Report.oneCommandPerIssue_iff` — there is one per issue unless a message holds a line feed;
* `Document.one_command_per_issue_iff` — **unless a line feed is quoted**, for documents;
* `Document.exists_not_oneCommandPerIssue` — a line feed in a name breaks a command apart.
-/

import SchemaAudit.Output
import SchemaAudit.Proofs.Sources

set_option relaxedAutoImplicit false
set_option autoImplicit false

namespace SchemaAudit

/-! ### Lines -/

/-- The lines of a text.  Each of them ends in a line feed, of which the last one may be missing. -/
def lines : List Char → List (List Char)
  | [] => []
  | c :: cs =>
    if c = '\n' then [] :: lines cs
    else
      match lines cs with
      | [] => [[c]]
      | line :: rest => (c :: line) :: rest

/-- Text without line feeds is one line. -/
theorem lines_append_of_notMem {line : List Char} (h : '\n' ∉ line) (cs : List Char) :
    lines (line ++ '\n' :: cs) = line :: lines cs := by
  induction line with
  | nil => simp [lines]
  | cons c line ih =>
      simp only [List.mem_cons, not_or] at h
      rw [List.cons_append, lines, if_neg (Ne.symm h.1), ih h.2]

/-- Text that ends in a line feed has as many lines as line feeds. -/
theorem length_lines_append (text cs : List Char) :
    (lines (text ++ '\n' :: cs)).length = text.count '\n' + 1 + (lines cs).length := by
  induction text with
  | nil =>
      simp only [List.nil_append, lines, if_true, List.length_cons, List.count_nil]
      omega
  | cons c text ih =>
      by_cases hc : c = '\n'
      · simp only [hc, List.cons_append, lines, if_true, List.length_cons, List.count_cons_self, ih]
        omega
      · have hne : lines (text ++ '\n' :: cs) ≠ [] := by
          intro hnil
          rw [hnil, List.length_nil] at ih
          omega
        obtain ⟨line, rest, hlines⟩ := List.exists_cons_of_ne_nil hne
        rw [List.count_cons_of_ne hc, ← ih, List.cons_append, lines, if_neg hc, hlines]
        rfl

/-! ### Commands -/

/-- What the command of an issue starts with. -/
def Issue.commandHead (schemaPath : String) (issue : Issue) : String :=
  (if issue.severity = .error then "::error file=" else "::warning file=") ++ schemaPath ++ "::" ++
    issue.code.name ++ " - "

theorem Issue.toList_github (schemaPath : String) (issue : Issue) :
    (issue.github schemaPath).toList =
      ((issue.commandHead schemaPath).toList ++ issue.message.toList) ++ ['\n'] := by
  cases hseverity : issue.severity <;>
    simp [github, commandHead, hseverity, Severity.githubLevel, String.toList_append]

theorem lineFeed_notMem_commandHead {schemaPath : String} (h : '\n' ∉ schemaPath.toList)
    (issue : Issue) : '\n' ∉ (issue.commandHead schemaPath).toList := by
  have code : ∀ code : Code, '\n' ∉ code.name.toList := by
    intro code
    cases code <;> decide
  simp only [Issue.commandHead, String.toList_append, List.mem_append, not_or]
  refine ⟨⟨⟨⟨?_, h⟩, by decide⟩, code _⟩, by decide⟩
  split <;> decide

namespace Report

variable {r : Report}

/-- **Each issue has its line**, in the order of the issues, which starts as its command does. -/
def OneCommandPerIssue (r : Report) : Prop :=
  List.Forall₂ (fun line issue => (Issue.commandHead r.schemaPath issue).toList <+: line)
    (lines r.github.toList) r.issues

/-- The lines of several commands, one after the other. -/
theorem length_lines_flatMap {schemaPath : String} (h : '\n' ∉ schemaPath.toList)
    (issues : List Issue) :
    (lines (issues.flatMap fun issue => (issue.github schemaPath).toList)).length =
      issues.length + (issues.map fun issue => issue.message.toList.count '\n').sum := by
  induction issues with
  | nil => rfl
  | cons issue issues ih =>
      have head := List.count_eq_zero.2 (lineFeed_notMem_commandHead h issue)
      rw [List.flatMap_cons, Issue.toList_github, List.append_assoc, List.singleton_append,
        length_lines_append, ih, List.count_append, head]
      simp only [List.length_cons, List.map_cons, List.sum_cons]
      omega

/-- **There are as many lines as issues, and one more for every line feed in a message.** -/
theorem length_lines_github (h : '\n' ∉ r.schemaPath.toList) :
    (lines r.github.toList).length =
      r.issues.length + (r.issues.map fun issue => issue.message.toList.count '\n').sum := by
  rw [github, String.toList_join, List.flatMap_map]
  exact length_lines_flatMap h r.issues

/-- **There is one command per issue unless a message holds a line feed.** -/
theorem oneCommandPerIssue_iff (h : '\n' ∉ r.schemaPath.toList) :
    r.OneCommandPerIssue ↔ ∀ issue ∈ r.issues, '\n' ∉ issue.message.toList := by
  constructor
  · intro hone issue hissue
    have hlength := length_lines_github h
    rw [hone.length_eq] at hlength
    have hsum : (r.issues.map fun issue => issue.message.toList.count '\n').sum = 0 := by omega
    have hcount := List.sum_eq_zero_iff.1 hsum _ (List.mem_map_of_mem hissue)
    exact List.count_eq_zero.1 hcount
  · intro hnone
    rw [OneCommandPerIssue, github, String.toList_join, List.flatMap_map]
    generalize r.issues = issues at hnone
    induction issues with
    | nil => exact .nil
    | cons issue issues ih =>
        obtain ⟨hissue, hissues⟩ := List.forall_mem_cons.1 hnone
        have hline : '\n' ∉ (issue.commandHead r.schemaPath).toList ++ issue.message.toList := by
          simp [lineFeed_notMem_commandHead h issue, hissue]
        rw [List.flatMap_cons, Issue.toList_github, List.append_assoc, List.singleton_append,
          lines_append_of_notMem hline]
        exact .cons (List.prefix_append _ _) (ih hissues)

end Report

/-! ### What messages quote -/

/-- The texts that the message of a problem quotes. -/
def Problem.quoted : Problem → List String
  | .mixedType names => names
  | .missingTag field | .openTag field => [field]
  | .repeatedTag value => [value]
  | .misnamed name _ => [name]
  | _ => []

theorem mem_intercalate_iff {c : Char} {separator : List Char} (h : c ∉ separator)
    (texts : List (List Char)) : c ∈ separator.intercalate texts ↔ ∃ text ∈ texts, c ∈ text := by
  match texts with
  | [] => simp
  | [text] => simp
  | text :: next :: rest =>
      rw [List.intercalate_cons_cons, List.mem_append, List.mem_append,
        mem_intercalate_iff h (next :: rest)]
      simp [h]

theorem lineFeed_notMem_toDigits (n : Nat) : '\n' ∉ Nat.toDigits 10 n := by
  intro h
  exact absurd (Nat.isDigit_of_mem_toDigits (by decide) (by decide) h) (by decide)

theorem lineFeed_notMem_keyword (keyword : Composition) : '\n' ∉ keyword.keyword.toList := by
  cases keyword <;> decide

theorem lineFeed_notMem_name (convention : NamingConvention) :
    '\n' ∉ convention.name.toList := by
  cases convention <;> decide

/-- A message holds a line feed exactly when a text that it quotes does. -/
theorem Problem.lineFeed_mem_message_iff (problem : Problem) :
    '\n' ∈ problem.message.toList ↔ ∃ text ∈ problem.quoted, '\n' ∈ text.toList := by
  unfold message quoted
  cases problem with
  | mixedType names => simp [String.toList_intercalate, mem_intercalate_iff]
  | _ => simp [lineFeed_notMem_toDigits, lineFeed_notMem_keyword, lineFeed_notMem_name]

/-! ### Documents -/

namespace Visit

/-- The texts at a stop of a walk that messages may quote: the names of types, the tags under the
fields that may be tags, and the names of properties. -/
def texts (config : Config) : Visit → List String
  | .schema _ s => s.typeList
  | .union u => config.tagFields.flatMap u.tags
  | .names _ declared => declared

/-- What is found at a stop quotes the texts there, or the fields that may be tags. -/
theorem mem_of_mem_quoted {config : Config} {v : Visit} {f : Finding} {text : String}
    (hf : f ∈ v.findings config) (h : text ∈ f.problem.quoted) :
    text ∈ config.tagFields ∨ text ∈ v.texts config := by
  cases v with
  | schema place s =>
      rw [Visit.findings] at hf
      split at hf
      · simp only [scaleFindings, compositionFindings, List.mem_append, mem_findIf_iff] at hf
        rcases hf with
          ((((⟨-, rfl⟩ | ⟨-, rfl⟩) | ⟨-, rfl⟩) | ⟨-, rfl⟩) | ⟨-, rfl⟩) | ⟨-, rfl⟩
        iterate 5 cases h
        exact .inr h
      · cases hf
  | union u =>
      cases (Union.reports_of_mem_findings hf).2 with
      | tag hfield hbreaks hf =>
          cases hbreaks with
          | absent => cases hf
          | missing =>
              obtain rfl := List.mem_singleton.1 hf
              exact .inl (List.mem_singleton.1 h ▸ hfield)
          | unset =>
              obtain rfl := List.mem_singleton.1 hf
              exact .inl (List.mem_singleton.1 h ▸ hfield)
          | other => cases hf
          | first => cases hf
          | again hs htag _ =>
              obtain rfl := List.mem_singleton.1 hf
              refine .inr (List.mem_flatMap.2 ⟨_, hfield, ?_⟩)
              rw [List.mem_singleton.1 h]
              exact List.mem_filterMap.2 ⟨_, Union.mem_variants_iff.2 hs, htag⟩
      | _ => cases h
  | names place names =>
      obtain ⟨name, hname, hf⟩ := List.mem_flatMap.1 hf
      obtain ⟨-, rfl⟩ := mem_findIf_iff.1 hf
      exact .inr (List.mem_singleton.1 h ▸ hname)

end Visit

namespace Document

/-- The texts of a document and of its settings that messages may quote. -/
def texts (config : Config) (d : Document) : List String :=
  config.tagFields ++ d.visits.flatMap (Visit.texts config)

theorem mem_texts_of_mem_quoted {config : Config} {d : Document} {f : Finding} {text : String}
    (hf : f ∈ d.findings config) (h : text ∈ f.problem.quoted) : text ∈ d.texts config := by
  obtain ⟨v, hv, hf⟩ := List.mem_flatMap.1 hf
  refine List.mem_append.2 ((Visit.mem_of_mem_quoted hf h).imp_right fun htext => ?_)
  exact List.mem_flatMap.2 ⟨v, hv, htext⟩

/-- **The lines of a report on a document.**  There are as many lines as issues, and one more for
every line feed in a message; there is one command per issue exactly when no finding quotes a line
feed; and this is so where no name, no tag and no field that may be one holds a line feed. -/
theorem one_command_per_issue_iff (config : Config) (d : Document) (schemaPath : String)
    (hpath : '\n' ∉ schemaPath.toList) :
    let report : Report := { d.audit config with schemaPath }
    (lines report.github.toList).length =
        report.issues.length +
          (report.issues.map fun issue => issue.message.toList.count '\n').sum ∧
      (report.OneCommandPerIssue ↔
        ∀ f ∈ d.findings config, ∀ text ∈ f.problem.quoted, '\n' ∉ text.toList) ∧
      ((∀ text ∈ d.texts config, '\n' ∉ text.toList) → report.OneCommandPerIssue) := by
  intro report
  have quoted : report.OneCommandPerIssue ↔
      ∀ f ∈ d.findings config, ∀ text ∈ f.problem.quoted, '\n' ∉ text.toList := by
    rw [Report.oneCommandPerIssue_iff hpath]
    simp only [report, audit, List.forall_mem_map]
    refine forall₂_congr fun f _ => ?_
    have message : '\n' ∉ f.issue.message.toList ↔
        ¬∃ text ∈ f.problem.quoted, '\n' ∈ text.toList :=
      (Problem.lineFeed_mem_message_iff f.problem).not
    simpa only [not_exists, not_and] using message
  refine ⟨Report.length_lines_github hpath, quoted, fun htexts => quoted.2 ?_⟩
  exact fun f hf text htext => htexts text (mem_texts_of_mem_quoted hf htext)

/-- An object with one property. -/
def single (name : String) : Document where
  root := .object { properties := [(name, some .empty)] }
  sorted_root := by
    refine .object (List.pairwise_singleton _ _) fun part hpart => ?_
    obtain rfl : part = .empty := by simpa [Keywords.mem_subschemas_iff] using hpart
    exact Schema.sorted_empty

/-- A name that follows no convention is reported on one line. -/
theorem one_command_per_issue_single :
    '\n' ∉ "s.json".toList ∧ (∀ text ∈ (single "A_b").texts {}, '\n' ∉ text.toList) ∧
      Report.OneCommandPerIssue { (single "A_b").audit {} with schemaPath := "s.json" } := by
  have path : '\n' ∉ "s.json".toList := by decide
  have texts : ∀ text ∈ (single "A_b").texts {}, '\n' ∉ text.toList := by decide
  exact ⟨path, texts, (one_command_per_issue_iff {} (single "A_b") "s.json" path).2.2 texts⟩

/-- **A line feed in a name breaks a command apart.** -/
theorem exists_not_oneCommandPerIssue :
    ¬∀ (config : Config) (d : Document) (schemaPath : String), '\n' ∉ schemaPath.toList →
      Report.OneCommandPerIssue { d.audit config with schemaPath } := by
  intro h
  have hone := h {} (single "A\nb") "s.json" (by decide)
  rw [Report.oneCommandPerIssue_iff (by decide)] at hone
  exact absurd hone (by decide)

end Document

end SchemaAudit
