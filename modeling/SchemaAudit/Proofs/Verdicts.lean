/-
**What is said about the tags of a document.**

A union that is looked into is in one of four cases: a field tells its branches apart, it is a
choice between a reference and an inline schema, it needs a tag and has none, or there is nothing to
tell apart.  Where no field tells the branches apart, the first one under which two branches have a
tag is taken for the one that was meant.

Main definitions:

* `ReferencePair` — lists of two branches of which one stands for a reference;
* `Union.Untagged` — the union needs a tag and has none;
* `Union.FirstAttempted` — the field that was meant to tell the branches apart;
* `Union.TagReport` — what there is to say about the slots of a union, given all fields.

Main results:

* `Document.untagged_unions_reported` — **the unions that need a tag and have none are reported, and
  each of them once**;
* `Document.broken_tags_reported` — **what is said about the tags of a document**.
-/

import SchemaAudit.Proofs.Findings
import SchemaAudit.Proofs.Reach
import SchemaAudit.Proofs.Tags

set_option relaxedAutoImplicit false
set_option autoImplicit false

namespace SchemaAudit

namespace Union

variable {u : Union} {field : String}

/-! ### Verdicts -/

/-- The field is the first one in the list that at least two inline branches have a tag under. -/
def FirstAttempted (u : Union) (fields : List String) (field : String) : Prop :=
  u.AttemptedBy field ∧ ∃ before after, fields = before ++ field :: after ∧
    ∀ other ∈ before, ¬u.AttemptedBy other

theorem attemptedField?_eq_some_iff {fields : List String} :
    u.attemptedField? fields = some field ↔ u.FirstAttempted fields field := by
  rw [attemptedField?, List.find?_eq_some_iff_append, FirstAttempted]
  simp only [decide_eq_true_eq, Bool.not_eq_true', decide_eq_false_iff_not, two_le_countP_iff]

theorem attemptedField?_eq_none_iff {fields : List String} :
    u.attemptedField? fields = none ↔ ∀ field ∈ fields, ¬u.AttemptedBy field := by
  rw [attemptedField?, List.find?_eq_none]
  simp only [decide_eq_true_eq, two_le_countP_iff]

theorem two_le_length_of_attemptedBy (h : u.AttemptedBy field) : 2 ≤ u.branches.length := by
  obtain ⟨i, j, s, t, hne, hs, ht, -, -⟩ := h
  have hi := (List.getElem?_eq_some_iff.1 hs.1).1
  have hj := (List.getElem?_eq_some_iff.1 ht.1).1
  omega

/-- A union that is looked into has an inline branch. -/
theorem variants_ne_nil_of_isExamined (h : u.isExamined = true) : u.variants ≠ [] := by
  obtain ⟨-, -, h⟩ := isExamined_iff.1 h
  intro hnil
  refine h fun s hs => ?_
  by_contra href
  obtain ⟨index, hindex⟩ := List.mem_iff_getElem?.1 hs
  have hvariant := mem_variants_iff.2 ⟨hindex, by simpa using href⟩
  simp [hnil] at hvariant

section

variable {fields : List String}

theorem verdict_of_isExamined (h : u.isExamined = true) :
    u.verdict fields =
      if u.branches.length < 2 then .lone
      else
        (u.tagField? fields).elim
          (if isReferencePair u.branches then .referencePair (u.attemptedField? fields)
            else .untagged (u.attemptedField? fields))
          .tagged := by
  simp only [isExamined, Bool.and_eq_true, Bool.not_eq_true'] at h
  rw [verdict, if_neg (by simp [h.1]), if_neg (by simp [h.2])]
  cases u.tagField? fields <;> rfl

theorem tagField?_of_isExamined (h : u.isExamined = true) (hlength : 2 ≤ u.branches.length) :
    u.tagField? fields = fields.find? u.isTaggedBy := by
  have hvariants := variants_ne_nil_of_isExamined h
  rw [tagField?, if_neg]
  simp only [Bool.or_eq_true, decide_eq_true_eq, List.isEmpty_iff, hvariants, or_false]
  omega

theorem verdict_of_length_lt (h : u.isExamined = true) (hlength : u.branches.length < 2) :
    u.verdict fields = .lone := by
  rw [verdict_of_isExamined h, if_pos hlength]

theorem verdict_of_distinguishedBy (h : u.isExamined = true) (hlength : 2 ≤ u.branches.length)
    (hfield : ∃ field ∈ fields, u.DistinguishedBy field) :
    ∃ field, u.DistinguishedBy field ∧ u.verdict fields = .tagged field := by
  rw [verdict_of_isExamined h, if_neg (Nat.not_lt_of_le hlength), tagField?_of_isExamined h hlength]
  cases hfind : fields.find? u.isTaggedBy with
  | none =>
      obtain ⟨field, hmem, hfield⟩ := hfield
      exact absurd (isTaggedBy_iff.2 hfield) (List.find?_eq_none.1 hfind field hmem)
  | some field => exact ⟨field, isTaggedBy_iff.1 (List.find?_some hfind), rfl⟩

theorem verdict_of_not_distinguishedBy (h : u.isExamined = true)
    (hlength : 2 ≤ u.branches.length) (hfield : ∀ field ∈ fields, ¬u.DistinguishedBy field) :
    u.verdict fields =
      if isReferencePair u.branches then .referencePair (u.attemptedField? fields)
      else .untagged (u.attemptedField? fields) := by
  have hnone : fields.find? u.isTaggedBy = none :=
    List.find?_eq_none.2 fun field hmem => isTaggedBy_iff.not.2 (hfield field hmem)
  rw [verdict_of_isExamined h, if_neg (Nat.not_lt_of_le hlength),
    tagField?_of_isExamined h hlength, hnone, Option.elim_none]

end

/-! ### What is said about one union -/

/-- A choice between two branches of which one stands for a reference: it declares the property for
this, or it is a reference to something named so. -/
def ReferencePair (branches : List Slot) : Prop :=
  branches.length = 2 ∧ ∃ s, some s ∈ branches ∧
    ((∃ property, s.property? "$component_ref" = some property) ∨
      s.isReference = true ∧
        ("Reference".toList <:+: s.keywords.ref.toList ∨ "Ref".toList <:+: s.keywords.ref.toList))

theorem containsWord_iff {word cs : List Char} : containsWord word cs = true ↔ word <:+: cs := by
  induction cs with
  | nil => simp [containsWord]
  | cons c cs ih =>
      rw [containsWord, Bool.or_eq_true, ih, List.infix_cons_iff, List.isPrefixOf_iff_prefix]

theorem isReferencePair_iff {branches : List Slot} :
    isReferencePair branches = true ↔ ReferencePair branches := by
  -- whatever holds the longer word holds the shorter one
  have longer : ∀ cs : List Char,
      "Reference".toList <:+: cs ∨ "Ref".toList <:+: cs ↔ "Ref".toList <:+: cs := fun cs =>
    or_iff_right_of_imp fun h =>
      List.IsInfix.trans (List.IsPrefix.isInfix ⟨"erence".toList, by decide⟩) h
  simp only [isReferencePair, ReferencePair, isReferenceSide, referenceProperty, longer,
    Bool.and_eq_true, Bool.or_eq_true, beq_iff_eq, List.any_eq_true, List.reduceOption_mem_iff,
    Option.isSome_iff_exists, containsWord_iff]

/-- The union needs a tag and has none. -/
def Untagged (u : Union) (fields : List String) : Prop :=
  2 ≤ u.branches.length ∧ ¬ReferencePair u.branches ∧
    ∀ field ∈ fields, ¬u.DistinguishedBy field

/-- **What there is to say about the slots of a union**, as far as its tags go. -/
structure TagReport (u : Union) (fields : List String) (broken : Nat → List Finding) : Prop where
  /-- A field tells the branches apart, and nothing is broken. -/
  tagged : 2 ≤ u.branches.length → (∃ field ∈ fields, u.DistinguishedBy field) →
    ∀ index, broken index = []
  /-- No field does, nor was one meant to. -/
  unmeant : ¬(2 ≤ u.branches.length ∧ ∃ field ∈ fields, u.DistinguishedBy field) →
    (∀ field ∈ fields, ¬u.AttemptedBy field) → ∀ index, broken index = []
  /-- No field does, and the first one that was meant to is broken by the branches as the rules
  say. -/
  meant : ¬(2 ≤ u.branches.length ∧ ∃ field ∈ fields, u.DistinguishedBy field) →
    ∀ field, u.FirstAttempted fields field → ∀ index findings,
      u.Breaks field index findings ↔ findings = broken index
  /-- Of equal tags under that field all but one are repetitions. -/
  repeated : ¬(2 ≤ u.branches.length ∧ ∃ field ∈ fields, u.DistinguishedBy field) →
    ∀ field, u.FirstAttempted fields field → ∀ tag,
      ((List.range u.branches.length).flatMap broken).countP
          (fun f => f.problem = .repeatedTag tag) =
        (u.tags field).count tag - 1

section

variable {config : Config} {p : Code → Bool}

/-- Codes of tags are used for the verdict only. -/
theorem filter_findings_of_isExamined (h : u.isExamined = true) (hlarge : p .largeUnion = false)
    (hnested : p .nestedUnion = false) (hopen : p .additionalProperties = false) :
    (u.findings config).filter (fun f => p f.problem.code) =
      (u.verdictFindings (u.verdict config.tagFields)).filter fun f => p f.problem.code := by
  have silent : ∀ (condition : Bool) (problem : Problem), p problem.code = false →
      (findIf condition u.place problem).filter (fun f => p f.problem.code) = [] := by
    intro condition problem hproblem
    refine filter_eq_nil_of_forall fun f hf => ?_
    rw [(mem_findIf_iff.1 hf).2]
    exact hproblem
  have openSilent : u.openFindings.filter (fun f => p f.problem.code) = [] := by
    refine filter_eq_nil_of_forall fun f hf => ?_
    rw [code_of_mem_openFindings hf]
    exact hopen
  rw [findings, if_pos h]
  simp only [List.filter_append, openSilent, silent _ (.largeUnion _ _) hlarge,
    silent _ (.nestedUnion _ _) hnested, List.nil_append, List.append_nil]

theorem findings_of_not_isExamined (h : u.isExamined = false) : u.findings config = [] := by
  simp [findings, h]

/-- A filter for the code of untagged unions lets nothing of a scan pass. -/
theorem filter_untagged_attemptFindings (attempt : Option String) :
    (u.attemptFindings attempt).filter (fun f => f.problem.code = .unionNoDiscriminator) = [] := by
  refine filter_eq_nil_of_forall fun f hf => ?_
  have := code_of_mem_attemptFindings hf
  simp only [decide_eq_false_iff_not]
  intro h
  rw [h] at this
  exact absurd this (by decide)

theorem filter_untagged_of_untagged (h : u.isExamined = true) (hu : u.Untagged config.tagFields) :
    ((u.findings config).filter fun f => f.problem.code = .unionNoDiscriminator) =
      [⟨u.place, .untaggedUnion u.keyword⟩] := by
  have hpair : isReferencePair u.branches = false :=
    Bool.eq_false_iff.2 (isReferencePair_iff.not.2 hu.2.1)
  rw [filter_findings_of_isExamined (p := fun code => code = .unionNoDiscriminator) h rfl rfl rfl,
    verdict_of_not_distinguishedBy h hu.1 hu.2.2, hpair, if_neg (by simp), verdictFindings,
    List.filter_cons_of_pos (by rfl), filter_untagged_attemptFindings]

theorem filter_untagged_of_not_untagged
    (hu : ¬(u.isExamined = true ∧ u.Untagged config.tagFields)) :
    ((u.findings config).filter fun f => f.problem.code = .unionNoDiscriminator) = [] := by
  cases h : u.isExamined with
  | false => simp [findings_of_not_isExamined h]
  | true =>
      rw [filter_findings_of_isExamined (p := fun code => code = .unionNoDiscriminator) h rfl rfl
        rfl]
      rcases Nat.lt_or_ge u.branches.length 2 with hlength | hlength
      · simp [verdict_of_length_lt h hlength, verdictFindings]
      · by_cases hfield : ∃ field ∈ config.tagFields, u.DistinguishedBy field
        · obtain ⟨field, hfield, hverdict⟩ := verdict_of_distinguishedBy h hlength hfield
          rw [hverdict, verdictFindings, tagFindings_eq_nil hfield, List.filter_nil]
        · have hfield : ∀ field ∈ config.tagFields, ¬u.DistinguishedBy field := by
            simpa using hfield
          have hpair : isReferencePair u.branches = true := by
            by_contra hpair
            exact hu ⟨h, hlength, isReferencePair_iff.not.1 hpair, hfield⟩
          rw [verdict_of_not_distinguishedBy h hlength hfield, if_pos hpair]
          exact filter_untagged_attemptFindings _

/-- What is said about the tags of a union is what the scan finds for the field that was meant,
unless a field tells the branches apart. -/
theorem filter_tags_of_not_distinguishedBy (h : u.isExamined = true)
    (hfield : ¬(2 ≤ u.branches.length ∧ ∃ field ∈ config.tagFields, u.DistinguishedBy field)) :
    ((u.findings config).filter fun f => f.problem.code ∈ Code.ofTags) =
      u.attemptFindings (u.attemptedField? config.tagFields) := by
  have whole : ∀ attempt, (u.attemptFindings attempt).filter
      (fun f => f.problem.code ∈ Code.ofTags) = u.attemptFindings attempt := fun attempt =>
    List.filter_eq_self.2 fun f hf => decide_eq_true (code_of_mem_attemptFindings hf)
  rw [filter_findings_of_isExamined (p := fun code => code ∈ Code.ofTags) h rfl rfl rfl]
  rcases Nat.lt_or_ge u.branches.length 2 with hlength | hlength
  · -- one branch has no two tags, so that no field was meant
    have hnone : u.attemptedField? config.tagFields = none :=
      attemptedField?_eq_none_iff.2 fun field _ hattempt =>
        absurd (two_le_length_of_attemptedBy hattempt) (Nat.not_le_of_lt hlength)
    rw [verdict_of_length_lt h hlength, hnone]
    rfl
  · have hfield : ∀ field ∈ config.tagFields, ¬u.DistinguishedBy field :=
      fun field hmem hdistinct => hfield ⟨hlength, field, hmem, hdistinct⟩
    rw [verdict_of_not_distinguishedBy h hlength hfield]
    split
    · exact whole _
    · rw [verdictFindings, List.filter_cons_of_neg (by simp [Problem.code, Code.ofTags]), whole]

theorem filter_tags_of_distinguishedBy (h : u.isExamined = true) (hlength : 2 ≤ u.branches.length)
    (hfield : ∃ field ∈ config.tagFields, u.DistinguishedBy field) :
    ((u.findings config).filter fun f => f.problem.code ∈ Code.ofTags) = [] := by
  rw [filter_findings_of_isExamined (p := fun code => code ∈ Code.ofTags) h rfl rfl rfl]
  obtain ⟨field, hfield, hverdict⟩ := verdict_of_distinguishedBy h hlength hfield
  rw [hverdict, verdictFindings, tagFindings_eq_nil hfield, List.filter_nil]

/-- **Every union that is looked into has a report of its tags**, and what is said about them is
what the report says. -/
theorem exists_tagReport (config : Config) (h : u.isExamined = true) :
    ∃ broken, u.TagReport config.tagFields broken ∧
      ((u.findings config).filter fun f => f.problem.code ∈ Code.ofTags) =
        (List.range u.branches.length).flatMap broken := by
  by_cases hfield : 2 ≤ u.branches.length ∧ ∃ field ∈ config.tagFields, u.DistinguishedBy field
  · refine ⟨fun _ => [], ⟨fun _ _ _ => rfl, ?_, ?_, ?_⟩, ?_⟩
    · exact fun hnone => absurd hfield hnone
    · exact fun hnone => absurd hfield hnone
    · exact fun hnone => absurd hfield hnone
    · rw [filter_tags_of_distinguishedBy h hfield.1 hfield.2]
      simp
  · rw [filter_tags_of_not_distinguishedBy h hfield]
    cases hattempt : u.attemptedField? config.tagFields with
    | none =>
        have hnone := attemptedField?_eq_none_iff.1 hattempt
        have never : ∀ field, ¬u.FirstAttempted config.tagFields field := by
          rintro field hfirst
          rw [attemptedField?_eq_some_iff.2 hfirst] at hattempt
          cases hattempt
        refine ⟨fun _ => [], ⟨fun _ _ _ => rfl, fun _ _ _ => rfl, ?_, ?_⟩, ?_⟩
        · exact fun _ field hfirst => absurd hfirst (never field)
        · exact fun _ field hfirst => absurd hfirst (never field)
        · simp [attemptFindings]
    | some field =>
        -- `broken` is not computed but chosen: the rules determine it slot by slot
        have only : ∀ other, u.FirstAttempted config.tagFields other → other = field := by
          intro other hfirst
          rw [attemptedField?_eq_some_iff.2 hfirst] at hattempt
          exact Option.some.inj hattempt
        have hfirst := attemptedField?_eq_some_iff.1 hattempt
        choose broken hbroken using exists_breaks u field
        refine ⟨broken, ⟨?_, ?_, ?_, ?_⟩, tagFindings_eq hbroken⟩
        · exact fun hlength hsome => absurd ⟨hlength, hsome⟩ hfield
        · intro _ hnone
          obtain ⟨hattempted, before, after, hsplit, -⟩ := hfirst
          exact absurd hattempted (hnone field (by simp [hsplit]))
        · rintro _ other hother index findings
          rw [only other hother]
          exact ⟨fun h => h.unique (hbroken index), fun h => h ▸ hbroken index⟩
        · rintro _ other hother tag
          rw [only other hother, ← tagFindings_eq hbroken, countP_tagFindings]
          simp [tags]

end

end Union

/-! ### What is said about all unions -/

/-- Unions about which nothing is said may be left out. -/
theorem flatMap_filter_of_forall {unions : List Union} {p : Union → Bool}
    {findings : Union → List Finding} (h : ∀ u, p u = false → findings u = []) :
    (unions.filter p).flatMap findings = unions.flatMap findings := by
  induction unions with
  | nil => rfl
  | cons u rest ih =>
      cases hu : p u with
      | true => rw [List.filter_cons_of_pos hu, List.flatMap_cons, List.flatMap_cons, ih]
      | false =>
          rw [List.filter_cons_of_neg (by simp [hu]), List.flatMap_cons, h u hu, ih,
            List.nil_append]

namespace Document

theorem nodup_places_filter (d : Document) (p : Union → Bool) :
    ((d.unions.filter p).map Union.place).Nodup :=
  d.nodup_places_unions.sublist (List.filter_sublist.map _)

/-- **The unions that need a tag and have none are reported, each of them once**, and nothing else
is reported with that code. -/
theorem untagged_unions_reported (config : Config) (d : Document) :
    ∃ unions : List Union, (unions.map Union.place).Nodup ∧
      (∀ u, u ∈ unions ↔ d.Examines u ∧ u.Untagged config.tagFields) ∧
      (d.audit config).issues.filter (fun issue => issue.code = .unionNoDiscriminator) =
        unions.map fun u => Finding.issue ⟨u.place, .untaggedUnion u.keyword⟩ := by
  classical
  let p : Union → Bool := fun u => decide (u.isExamined = true ∧ u.Untagged config.tagFields)
  refine ⟨d.unions.filter p, d.nodup_places_filter p, fun u => ?_, ?_⟩
  · rw [List.mem_filter, decide_eq_true_eq, mem_unions_iff_meets, Union.isExamined_iff, Examines,
      and_assoc]
  · have one : ∀ u ∈ d.unions.filter p,
        ((u.findings config).filter fun f => f.problem.code = .unionNoDiscriminator) =
          [⟨u.place, .untaggedUnion u.keyword⟩] := by
      intro u hu
      obtain ⟨hexamined, huntagged⟩ := of_decide_eq_true (List.mem_filter.1 hu).2
      exact Union.filter_untagged_of_untagged hexamined huntagged
    rw [filter_issues config d (fun code => code = .unionNoDiscriminator),
      filter_findings config d (p := fun code => code = .unionNoDiscriminator)
        (fun code hcode => by rw [of_decide_eq_true hcode]; decide),
      ← flatMap_filter_of_forall (p := p)
        (fun u hu => Union.filter_untagged_of_not_untagged (of_decide_eq_false hu)),
      List.flatMap_congr one, ← List.map_eq_flatMap, List.map_map]
    rfl

/-- **What is said about the tags of a document** is what the rules say about the slots of the
unions that are looked into. -/
theorem broken_tags_reported (config : Config) (d : Document) :
    ∃ (unions : List Union) (broken : Union → Nat → List Finding),
      (unions.map Union.place).Nodup ∧ (∀ u, u ∈ unions ↔ d.Examines u) ∧
      (∀ u ∈ unions, u.TagReport config.tagFields (broken u)) ∧
      (d.audit config).issues.filter (fun issue => issue.code ∈ Code.ofTags) =
        (unions.flatMap fun u => (List.range u.branches.length).flatMap (broken u)).map
          Finding.issue := by
  have report : ∀ u : Union, ∃ broken, u.isExamined = true → u.TagReport config.tagFields broken ∧
      ((u.findings config).filter fun f => f.problem.code ∈ Code.ofTags) =
        (List.range u.branches.length).flatMap broken := by
    intro u
    by_cases h : u.isExamined = true
    · obtain ⟨broken, hbroken⟩ := Union.exists_tagReport config h
      exact ⟨broken, fun _ => hbroken⟩
    · exact ⟨fun _ => [], fun h' => absurd h' h⟩
  choose broken hbroken using report
  refine ⟨d.unions.filter Union.isExamined, broken, d.nodup_places_filter _, fun u => ?_, ?_, ?_⟩
  · rw [List.mem_filter, mem_unions_iff_meets, Union.isExamined_iff, Examines]
  · exact fun u hu => (hbroken u (List.mem_filter.1 hu).2).1
  · rw [filter_issues config d (fun code => code ∈ Code.ofTags),
      filter_findings config d (p := fun code => code ∈ Code.ofTags)
        (fun code hcode => List.mem_append_right _ (of_decide_eq_true hcode)),
      ← flatMap_filter_of_forall (p := Union.isExamined)
        (fun u hu => by rw [Union.findings_of_not_isExamined hu, List.filter_nil])]
    congr 1
    exact List.flatMap_congr fun u hu => (hbroken u (List.mem_filter.1 hu).2).2

end Document

end SchemaAudit
