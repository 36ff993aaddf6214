/-
**What the log and the findings say about the same union.**

While an audit collects findings it also notes in a log how it deals with each union.  Both come
about along the same walk, but in different places of it.  This module proves that they agree: of
every union that the walk meets they show in exactly one way how it was dealt with, and where broken
tags are reported the log has noted the check that found them.

Main definitions:

* `Union.Judged` — **the rules of the verdict on a union**;
* `Event.place?`, `Finding.owner` — the place of the union that an event, or a finding, is about;
* `Sign`, `signs` — what shows how a union was dealt with, in the log or in the findings;
* `Union.Accounted` — **what the log and the findings say about a union**;
* `Document.origins`, `Document.Stretch` — where the walk starts, and the part of a log that belongs
  to one start.

Main results:

* `Union.judged_verdict` — the verdict on a union follows the rules;
* `Union.accounted` — what is noted about a union and what is found there fit together;
* `Document.filter_place_log` — the events about a union can be told from all others;
* `Document.log_matches_findings` — **the log and the findings tell the same story**.
-/

import SchemaAudit.Audit.Log
import SchemaAudit.Proofs.Sources

set_option relaxedAutoImplicit false
set_option autoImplicit false

namespace SchemaAudit

/-! ### Verdicts -/

namespace Union

variable {u : Union} {fields : List String} {field : String}

/-- The field is the first one in the list that tells the inline branches apart. -/
def FirstDistinguishing (u : Union) (fields : List String) (field : String) : Prop :=
  u.DistinguishedBy field ∧ ∃ before after, fields = before ++ field :: after ∧
    ∀ other ∈ before, ¬u.DistinguishedBy other

/-- **The rules of the verdict on a union**, given the fields that may tag it. -/
inductive Judged (fields : List String) (u : Union) : Verdict → Prop
  | nullable : NullablePair u.branches → Judged fields u .nullable
  | referencesOnly : ¬NullablePair u.branches →
      (∀ s, some s ∈ u.branches → s.isReference = true) → Judged fields u .referencesOnly
  | lone : Examined u.branches → u.branches.length = 1 → Judged fields u .lone
  | tagged {field : String} : Examined u.branches → 2 ≤ u.branches.length →
      u.FirstDistinguishing fields field → Judged fields u (.tagged field)
  | referencePair {attempt : Option String} : Examined u.branches → ReferencePair u.branches →
      (∀ field ∈ fields, ¬u.DistinguishedBy field) →
      (∀ field, attempt = some field ↔ u.FirstAttempted fields field) →
      Judged fields u (.referencePair attempt)
  | untagged {attempt : Option String} : Examined u.branches → u.Untagged fields →
      (∀ field, attempt = some field ↔ u.FirstAttempted fields field) →
      Judged fields u (.untagged attempt)

theorem find?_isTaggedBy_eq_some_iff :
    fields.find? u.isTaggedBy = some field ↔ u.FirstDistinguishing fields field := by
  rw [List.find?_eq_some_iff_append, FirstDistinguishing]
  simp only [Bool.not_eq_true', Bool.eq_false_iff, ne_eq, isTaggedBy_iff]

theorem FirstDistinguishing.mem (h : u.FirstDistinguishing fields field) : field ∈ fields := by
  obtain ⟨-, before, after, rfl, -⟩ := h
  simp

/-- **The verdict on a union follows the rules.** -/
theorem judged_verdict (hne : u.branches ≠ []) : u.Judged fields (u.verdict fields) := by
  by_cases hnullable : NullablePair u.branches
  · rw [verdict, if_pos (isNullable_iff.2 hnullable)]
    exact .nullable hnullable
  · by_cases hreferences : ∀ s, some s ∈ u.branches → s.isReference = true
    · rw [verdict, if_neg (isNullable_iff.not.2 hnullable),
        if_pos (isReferencesOnly_iff.2 hreferences)]
      exact .referencesOnly hnullable hreferences
    · have hexamined : Examined u.branches := ⟨hne, hnullable, hreferences⟩
      have hexamined' := isExamined_iff.2 hexamined
      have hlength := List.length_pos_iff.2 hne
      rw [verdict_of_isExamined hexamined']
      split
      · exact .lone hexamined (by omega)
      · rename_i hlength
        have hlength := Nat.le_of_not_lt hlength
        rw [tagField?_of_isExamined hexamined' hlength]
        have hattempt : ∀ field, u.attemptedField? fields = some field ↔
            u.FirstAttempted fields field := fun _ => attemptedField?_eq_some_iff
        cases hfind : fields.find? u.isTaggedBy with
        | some field => exact .tagged hexamined hlength (find?_isTaggedBy_eq_some_iff.1 hfind)
        | none =>
            have hnone : ∀ field ∈ fields, ¬u.DistinguishedBy field := fun field hmem =>
              isTaggedBy_iff.not.1 (List.find?_eq_none.1 hfind field hmem)
            rw [Option.elim_none]
            split
            · rename_i hpair
              exact .referencePair hexamined (isReferencePair_iff.1 hpair) hnone hattempt
            · rename_i hpair
              exact .untagged hexamined ⟨hlength, isReferencePair_iff.not.1 hpair, hnone⟩ hattempt

end Union

/-! ### What shows how a union was dealt with -/

/-- The place of the union that an event is about. -/
def Event.place? : Event → Option Place
  | .root _ | .definition _ _ | .complete _ _ => none
  | .nullable place | .referencesOnly place | .tagged place _ | .referencePair place
  | .attempt place _ => some place

/-- What shows how a union was dealt with. -/
inductive Sign where
  | nullable
  | referencesOnly
  | tagged (field : String)
  | referencePair
  /-- The report that there is no tag. -/
  | untagged
deriving DecidableEq

/-- The sign that an event is. The check of a tag that was meant is none. -/
def Event.sign? : Event → Option Sign
  | .nullable _ => some .nullable
  | .referencesOnly _ => some .referencesOnly
  | .tagged _ field => some (.tagged field)
  | .referencePair _ => some .referencePair
  | .root _ | .definition _ _ | .attempt _ _ | .complete _ _ => none

/-- The sign that a finding is. -/
def Finding.sign? (f : Finding) : Option Sign :=
  if f.problem.code = .unionNoDiscriminator then some .untagged else none

/-- All that shows how a union was dealt with, given what is noted about it and what is found. -/
def signs (events : List Event) (findings : List Finding) : List Sign :=
  events.filterMap Event.sign? ++ findings.filterMap Finding.sign?

/-- **What is so about a union that bears a sign**, given the fields that may tag it. -/
inductive Sign.Fits (fields : List String) (u : Union) : Sign → Prop
  | nullable : NullablePair u.branches → Fits fields u .nullable
  | referencesOnly : ¬NullablePair u.branches →
      (∀ s, some s ∈ u.branches → s.isReference = true) → Fits fields u .referencesOnly
  | tagged {field : String} : Examined u.branches → 2 ≤ u.branches.length →
      u.FirstDistinguishing fields field → Fits fields u (.tagged field)
  | referencePair : Examined u.branches → Union.ReferencePair u.branches →
      (∀ field ∈ fields, ¬u.DistinguishedBy field) → Fits fields u .referencePair
  | untagged : Examined u.branches → u.Untagged fields → Fits fields u .untagged

/-- The field of the tag that was meant, where an event notes that it is checked. -/
def Event.attempted? : Event → Option String
  | .attempt _ field => some field
  | _ => none

/-- **What the log and the findings say about a union**, given the events about it and the findings
that belong to it. -/
structure Union.Accounted (fields : List String) (u : Union) (events : List Event)
    (findings : List Finding) : Prop where
  /-- One sign shows how the union was dealt with, and it fits; a single branch may do without. -/
  sign : (∃ sign, signs events findings = [sign] ∧ sign.Fits fields u) ∨
    signs events findings = [] ∧ u.branches.length = 1
  /-- No two checks of a tag that was meant are noted, -/
  once : (events.filterMap Event.attempted?).length ≤ 1
  /-- and one is noted for the field that was meant exactly where the union is a reference pair, has
  no tag, or bears no sign at all. -/
  attempted : ∀ field, .attempt u.place field ∈ events ↔ u.FirstAttempted fields field ∧
    (signs events findings = [.referencePair] ∨ signs events findings = [.untagged] ∨
      signs events findings = [])
  /-- Broken tags are reported only where the check is noted, and under the field that it names. -/
  broken : ∀ f ∈ findings, f.problem.code ∈ Code.ofTags →
    ∃ field index, .attempt u.place field ∈ events ∧ ScanFinding u.place field index f

/-- The sign that goes with a verdict. -/
def Verdict.sign? : Verdict → Option Sign
  | .nullable => some .nullable
  | .referencesOnly => some .referencesOnly
  | .tagged field => some (.tagged field)
  | .referencePair _ => some .referencePair
  | .untagged _ => some .untagged
  | .lone => none

/-- The field that was meant, where a verdict has it checked. -/
def Verdict.attempt? : Verdict → Option String
  | .referencePair attempt | .untagged attempt => attempt
  | .nullable | .referencesOnly | .tagged _ | .lone => none

namespace Union

variable {u : Union} {config : Config} {fields : List String} {verdict : Verdict}

theorem filterMap_sign?_eq (findings : List Finding) :
    findings.filterMap Finding.sign? =
      (findings.filter fun f => f.problem.code = .unionNoDiscriminator).map fun _ => .untagged := by
  induction findings with
  | nil => rfl
  | cons f rest ih =>
      by_cases h : f.problem.code = .unionNoDiscriminator <;> simp [Finding.sign?, h, ih]

/-- Broken tags are reported where no field tells the branches apart, and under the field that was
meant. -/
theorem exists_firstAttempted_of_mem_findings {f : Finding} (hf : f ∈ u.findings config)
    (hcode : f.problem.code ∈ Code.ofTags) :
    u.isExamined = true ∧
      ¬(2 ≤ u.branches.length ∧ ∃ field ∈ config.tagFields, u.DistinguishedBy field) ∧
      ∃ field index, u.FirstAttempted config.tagFields field ∧
        ScanFinding u.place field index f := by
  have hexamined := (reports_of_mem_findings hf).1
  have hmem : f ∈ (u.findings config).filter fun f => f.problem.code ∈ Code.ofTags :=
    List.mem_filter.2 ⟨hf, decide_eq_true hcode⟩
  have hfield : ¬(2 ≤ u.branches.length ∧ ∃ field ∈ config.tagFields, u.DistinguishedBy field) := by
    rintro ⟨hlength, hfield⟩
    rw [filter_tags_of_distinguishedBy hexamined hlength hfield] at hmem
    cases hmem
  refine ⟨hexamined, hfield, ?_⟩
  rw [filter_tags_of_not_distinguishedBy hexamined hfield] at hmem
  cases hattempt : u.attemptedField? config.tagFields with
  | none => simp [hattempt, attemptFindings] at hmem
  | some field =>
      rw [hattempt] at hmem
      obtain ⟨variant, -, hscan⟩ := scanFinding_of_mem_tagFindings hmem
      exact ⟨field, variant.1, attemptedField?_eq_some_iff.1 hattempt, hscan⟩

theorem filterMap_sign?_of_untagged (h : Examined u.branches) (hu : u.Untagged config.tagFields) :
    (u.findings config).filterMap Finding.sign? = [.untagged] := by
  rw [filterMap_sign?_eq, filter_untagged_of_untagged (isExamined_iff.2 h) hu]
  rfl

theorem filterMap_sign?_of_not_untagged
    (hu : ¬(Examined u.branches ∧ u.Untagged config.tagFields)) :
    (u.findings config).filterMap Finding.sign? = [] := by
  rw [filterMap_sign?_eq, filter_untagged_of_not_untagged fun h => hu ⟨isExamined_iff.1 h.1, h.2⟩]
  rfl

theorem filterMap_attempted?_events (u : Union) (verdict : Verdict) :
    (u.events verdict).filterMap Event.attempted? = verdict.attempt?.toList := by
  rcases verdict with _ | _ | _ | (_ | _) | (_ | _) | _ <;> rfl

theorem attempt_mem_events_iff {field : String} :
    .attempt u.place field ∈ u.events verdict ↔ verdict.attempt? = some field := by
  rcases verdict with _ | _ | _ | (_ | _) | (_ | _) | _ <;>
    simp [events, attemptEvents, Verdict.attempt?, eq_comm]

/-- **The signs of a union are those that go with the verdict.** -/
theorem Judged.signs_eq (h : u.Judged config.tagFields verdict) :
    signs (u.events verdict) (u.findings config) = verdict.sign?.toList := by
  have attempts : ∀ attempt, (u.attemptEvents attempt).filterMap Event.sign? = [] := by
    rintro (_ | field) <;> rfl
  have silent : ¬(Examined u.branches ∧ u.Untagged config.tagFields) →
      (u.findings config).filterMap Finding.sign? = [] := filterMap_sign?_of_not_untagged
  rw [signs]
  cases h with
  | nullable hnullable =>
      rw [silent fun h => h.1.2.1 hnullable]
      rfl
  | referencesOnly _ hreferences =>
      rw [silent fun h => h.1.2.2 hreferences]
      rfl
  | lone _ hlength =>
      rw [silent fun h => absurd h.2.1 (by omega)]
      rfl
  | tagged _ _ hfield =>
      rw [silent fun h => h.2.2.2 _ hfield.mem hfield.1]
      rfl
  | referencePair _ hpair _ _ =>
      rw [silent fun h => h.2.2.1 hpair]
      simp [events, Event.sign?, Verdict.sign?, attempts]
  | untagged hexamined hu _ =>
      rw [filterMap_sign?_of_untagged hexamined hu, events, attempts]
      rfl

theorem Judged.fits {sign : Sign} (h : u.Judged fields verdict)
    (hsign : verdict.sign? = some sign) : sign.Fits fields u := by
  cases h with
  | nullable hnullable =>
      cases hsign
      exact .nullable hnullable
  | referencesOnly hnullable hreferences =>
      cases hsign
      exact .referencesOnly hnullable hreferences
  | lone => cases hsign
  | tagged hexamined hlength hfield =>
      cases hsign
      exact .tagged hexamined hlength hfield
  | referencePair hexamined hpair hnone =>
      cases hsign
      exact .referencePair hexamined hpair hnone
  | untagged hexamined hu =>
      cases hsign
      exact .untagged hexamined hu

theorem Judged.length_eq_one (h : u.Judged fields verdict) (hsign : verdict.sign? = none) :
    u.branches.length = 1 := by
  cases h with
  | lone _ hlength => exact hlength
  | _ => cases hsign

/-- A verdict has a tag checked that was meant, unless there is one that tells the branches apart or
none is needed whatever the branches declare. -/
theorem Judged.attempt?_eq_some_iff {field : String} (h : u.Judged fields verdict) :
    verdict.attempt? = some field ↔ u.FirstAttempted fields field ∧
      (verdict.sign? = some .referencePair ∨ verdict.sign? = some .untagged ∨
        verdict.sign? = none) := by
  cases h with
  | referencePair _ _ _ hattempt => simp [Verdict.attempt?, Verdict.sign?, hattempt]
  | untagged _ _ hattempt => simp [Verdict.attempt?, Verdict.sign?, hattempt]
  | lone _ hlength =>
      -- one branch has no two tags, so that no field was meant
      refine iff_of_false (by simp [Verdict.attempt?]) fun hmeant => ?_
      have := two_le_length_of_attemptedBy hmeant.1.1
      omega
  | _ => simp [Verdict.attempt?, Verdict.sign?]

/-- Where no field tells the branches of a union apart, its verdict is one of the last three. -/
theorem Judged.sign?_of_not_distinguishedBy (h : u.Judged fields verdict)
    (hexamined : Examined u.branches)
    (hfield : ¬(2 ≤ u.branches.length ∧ ∃ field ∈ fields, u.DistinguishedBy field)) :
    verdict.sign? = some .referencePair ∨ verdict.sign? = some .untagged ∨
      verdict.sign? = none := by
  cases h with
  | nullable hnullable => exact absurd hnullable hexamined.2.1
  | referencesOnly _ hreferences => exact absurd hreferences hexamined.2.2
  | tagged _ hlength hdistinct => exact absurd ⟨hlength, _, hdistinct.mem, hdistinct.1⟩ hfield
  | referencePair => exact .inl rfl
  | untagged => exact .inr (.inl rfl)
  | lone => exact .inr (.inr rfl)

/-- **What is noted about a union and what is found there fit together.** -/
theorem accounted (config : Config) (hne : u.branches ≠ []) :
    u.Accounted config.tagFields (u.events (u.verdict config.tagFields)) (u.findings config) := by
  have hjudged : u.Judged config.tagFields (u.verdict config.tagFields) := judged_verdict hne
  have hlast : ∀ sign, signs (u.events (u.verdict config.tagFields)) (u.findings config) = [sign] ↔
      (u.verdict config.tagFields).sign? = some sign := by
    intro sign
    rw [hjudged.signs_eq]
    cases (u.verdict config.tagFields).sign? <;> simp
  have hnone : signs (u.events (u.verdict config.tagFields)) (u.findings config) = [] ↔
      (u.verdict config.tagFields).sign? = none := by
    rw [hjudged.signs_eq, Option.toList_eq_nil_iff]
  refine ⟨?_, ?_, fun field => ?_, fun f hf hcode => ?_⟩
  · cases hsign : (u.verdict config.tagFields).sign? with
    | none => exact .inr ⟨hnone.2 hsign, hjudged.length_eq_one hsign⟩
    | some sign => exact .inl ⟨sign, (hlast sign).2 hsign, hjudged.fits hsign⟩
  · rw [filterMap_attempted?_events]
    exact Option.length_toList_le
  · rw [attempt_mem_events_iff, hjudged.attempt?_eq_some_iff, hlast, hlast, hnone]
  · obtain ⟨hexamined, hfield, field, index, hfirst, hscan⟩ :=
      exists_firstAttempted_of_mem_findings hf hcode
    refine ⟨field, index, attempt_mem_events_iff.2 (hjudged.attempt?_eq_some_iff.2 ⟨hfirst, ?_⟩),
      hscan⟩
    exact hjudged.sign?_of_not_distinguishedBy (isExamined_iff.1 hexamined) hfield

end Union

/-! ### Events of a document -/

theorem Union.place?_of_mem_events {u : Union} {verdict : Verdict} {e : Event}
    (h : e ∈ u.events verdict) : e.place? = some u.place := by
  have attempt : ∀ attempt, e ∈ u.attemptEvents attempt → e.place? = some u.place := by
    rintro (_ | field) h
    · cases h
    · cases List.mem_singleton.1 h
      rfl
  cases verdict with
  | lone => cases h
  | referencePair field =>
      rcases List.mem_cons.1 h with rfl | h
      · rfl
      · exact attempt field h
  | untagged field => exact attempt field h
  | _ =>
      cases List.mem_singleton.1 h
      rfl

theorem place?_originEvent (config : Config) (o : Origin) : (o.event config).place? = none := by
  cases o <;> rfl

namespace Document

variable {config : Config} {d : Document}

/-- The origins from which a document is walked: its root, and the definitions that are there, those
of `$defs` first. -/
def origins (d : Document) : List Origin :=
  .document :: [DefinitionGroup.defs, .definitions].flatMap fun group =>
    ((d.entries group).filter fun entry => entry.2.isSome).map fun entry =>
      .definition group entry.1

/-- **The part of a log that belongs to one origin**: the event of the origin, and after it events
about unions below it that the walk meets. -/
def Stretch (config : Config) (d : Document) (origin : Origin) (events : List Event) : Prop :=
  ∃ notes, events = origin.event config :: notes ∧
    ∀ e ∈ notes, ∃ u, d.Meets u ∧ u.place.start = origin ∧ e.place? = some u.place

theorem origins_eq (d : Document) : d.origins = d.roots.map Prod.fst := by
  have group : ∀ (group : DefinitionGroup) (entries : NameMap Slot),
      (entries.filter fun entry => entry.2.isSome).map (fun entry => Origin.definition group entry.1) =
        (group.roots entries).map Prod.fst := by
    intro group entries
    induction entries with
    | nil => rfl
    | cons entry rest ih =>
        obtain ⟨name, _ | s⟩ := entry
        · exact ih
        · exact congrArg (List.cons _) ih
  simp [origins, roots_eq, group]

/-- What is noted on the way is noted at the unions. -/
theorem flatMap_events_eq (config : Config) (d : Document) :
    d.visits.flatMap (Visit.events config) =
      d.unions.flatMap fun u => u.events (u.verdict config.tagFields) := by
  rw [unions]
  induction d.visits with
  | nil => rfl
  | cons v rest ih => cases v <;> simp [Visit.events, ih]

/-- **A log falls into stretches**, one for each origin, and the event that the audit is complete. -/
theorem exists_stretches (config : Config) (d : Document) :
    ∃ stretches, d.log config = stretches.flatten ++
        [.complete ((d.audit config).count .error) ((d.audit config).count .warning)] ∧
      List.Forall₂ (d.Stretch config) d.origins stretches := by
  refine ⟨d.roots.map fun root => root.1.event config ::
    (root.2.visits (.origin root.1) 0).flatMap (Visit.events config), ?_, ?_⟩
  · rw [log, List.flatMap_def]
  · rw [origins_eq, List.forall₂_map_left_iff, List.forall₂_map_right_iff, List.forall₂_same]
    refine fun root hroot => ⟨_, rfl, fun e he => ?_⟩
    obtain ⟨v, hv, he⟩ := List.mem_flatMap.1 he
    cases v with
    | union u =>
        refine ⟨u, mem_unions_iff_meets.1 (mem_unions_iff.2 (List.mem_flatMap.2 ⟨root, hroot, hv⟩)),
          ?_, Union.place?_of_mem_events he⟩
        exact (Site.under_of_mem_visits (x := ⟨.origin root.1, 0, root.2⟩) hv).start_eq
    | _ => cases he

theorem Stretch.filter_isNone {o : Origin} {events : List Event} (h : d.Stretch config o events) :
    (events.filter fun e => e.place?.isNone) = [o.event config] := by
  obtain ⟨notes, rfl, hnotes⟩ := h
  rw [List.filter_cons_of_pos (by rw [place?_originEvent]; rfl), List.filter_eq_nil_iff.2]
  intro e he
  obtain ⟨u, -, -, hplace⟩ := hnotes e he
  simp [hplace]

/-- Apart from events about unions a log holds the events of the origins and the last one. -/
theorem filter_isNone_log (config : Config) (d : Document) :
    ((d.log config).filter fun e => e.place?.isNone) = d.origins.map (Origin.event config) ++
      [.complete ((d.audit config).count .error) ((d.audit config).count .warning)] := by
  obtain ⟨stretches, hlog, hstretches⟩ := exists_stretches config d
  have frame : ∀ {origins stretches}, List.Forall₂ (d.Stretch config) origins stretches →
      (stretches.flatten.filter fun e => e.place?.isNone) = origins.map (Origin.event config) := by
    intro origins stretches h
    induction h with
    | nil => rfl
    | cons h _ ih => simp [h.filter_isNone, ih]
  rw [hlog, List.filter_append, frame hstretches]
  rfl

/-- The events about unions are noted at the unions that the walk meets, in its order. -/
theorem filter_isSome_log (config : Config) (d : Document) :
    ((d.log config).filter fun e => e.place?.isSome) =
      d.unions.flatMap fun u => u.events (u.verdict config.tagFields) := by
  have notes : ∀ visits : List Visit, ((visits.flatMap (Visit.events config)).filter
      fun e => e.place?.isSome) = visits.flatMap (Visit.events config) := by
    intro visits
    refine List.filter_eq_self.2 fun e he => ?_
    obtain ⟨v, -, he⟩ := List.mem_flatMap.1 he
    cases v with
    | union u => simp [Union.place?_of_mem_events he]
    | _ => cases he
  have stretch : ∀ root : Origin × Schema, ((root.1.event config ::
      (root.2.visits (.origin root.1) 0).flatMap (Visit.events config)).filter
        fun e => e.place?.isSome) =
      (root.2.visits (.origin root.1) 0).flatMap (Visit.events config) := fun root => by
    rw [List.filter_cons_of_neg (by rw [place?_originEvent]; simp), notes]
  rw [← flatMap_events_eq, visits, List.flatMap_assoc, log, List.filter_append,
    List.filter_flatMap]
  simp only [stretch]
  exact List.append_nil _

/-- **The events about a union can be told from all others** by their place. -/
theorem filter_place_log (config : Config) {u : Union} (hu : u ∈ d.unions) :
    ((d.log config).filter fun e => e.place? = some u.place) =
      u.events (u.verdict config.tagFields) := by
  have hn : (d.unions.map (some ∘ Union.place)).Nodup := by
    rw [← List.map_map]
    exact d.nodup_places_unions.map (Option.some_injective _)
  have hplaces : ∀ w ∈ d.unions, ∀ e ∈ w.events (w.verdict config.tagFields),
      e.place? = (some ∘ Union.place) w := fun w _ e he => Union.place?_of_mem_events he
  rw [← filter_flatMap_of_nodup hn hplaces hu, ← filter_isSome_log, List.filter_filter]
  refine List.filter_congr fun e _ => ?_
  by_cases h : e.place? = some u.place <;> simp [h]

/-- **The log and the findings tell the same story.** A log falls into stretches, one for the root
and one for each definition that is there, in the order of the walk, and ends with the numbers of
errors and warnings of the report. Of every union that the walk meets the events about it and the
findings that belong to it, which the report gives as issues, fit together, and no other union has
any. -/
theorem log_matches_findings (config : Config) (d : Document) :
    (∃ stretches, d.log config = stretches.flatten ++
        [.complete ((d.audit config).count .error) ((d.audit config).count .warning)] ∧
      List.Forall₂ (d.Stretch config) d.origins stretches) ∧
    ((d.log config).filter fun e => e.place?.isNone) = d.origins.map (Origin.event config) ++
      [.complete ((d.audit config).count .error) ((d.audit config).count .warning)] ∧
    (∀ u, d.Meets u → u.Accounted config.tagFields
      ((d.log config).filter fun e => e.place? = some u.place)
      (((d.findings config).filter fun f => f.problem.code ∈ Code.ofUnions).filter
        fun f => f.owner = u.place)) ∧
    (∀ f ∈ d.findings config, f.problem.code ∈ Code.ofUnions →
      ∃ u, d.Meets u ∧ f.owner = u.place) ∧
    (d.audit config).issues = (d.findings config).map Finding.issue := by
  refine ⟨exists_stretches config d, filter_isNone_log config d, fun u hu => ?_, ?_, rfl⟩
  · have hmem := mem_unions_iff_meets.2 hu
    rw [filter_place_log config hmem, filter_owner config hmem]
    obtain ⟨-, -, -, hne⟩ := hu
    exact Union.accounted config hne
  · intro f hf hcode
    have hmem : f ∈ (d.findings config).filter fun f => f.problem.code ∈ Code.ofUnions :=
      List.mem_filter.2 ⟨hf, decide_eq_true hcode⟩
    rw [findings_unions] at hmem
    obtain ⟨u, hu, hf⟩ := List.mem_flatMap.1 hmem
    exact ⟨u, mem_unions_iff_meets.1 hu, (Union.finds_of_mem_findings hf).owner_eq⟩

end Document

end SchemaAudit
