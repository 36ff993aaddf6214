/-
**Which check reports what.**

Every check has codes of its own.  Whoever asks for the findings with some of the codes therefore
only has to look at the checks that use them, wherever in the document these are made.

Main definitions:

* `Code.ofScale`, `Code.ofTags`, `Code.ofUnions` — the codes of the scale profile, of the tags of
  unions, and of all that is said about unions;
* `ScanFinding`, `Union.Finds` — **what a scan for a broken tag may say, and what may be wrong with
  a union**;
* `Finding.owner` — the place of the union that a finding belongs to.

Main results:

* `Union.finds_of_mem_findings` — the checks of a union find nothing but this;
* `Document.filter_findings`, `Document.exists_names_of_mem_findings` — the findings with codes of
  unions are found at the unions, and those about names where schemas are left;
* `Document.filter_issues` — the issues with some codes report the findings with these codes;
* `Document.filter_owner` — **the findings of a union can be told from all others**.
-/

import SchemaAudit.Proofs.Walk

set_option relaxedAutoImplicit false
set_option autoImplicit false

namespace SchemaAudit

/-! ### Codes -/

namespace Code

/-- The codes that belong to the scale profile. -/
def ofScale : List Code :=
  [.compositionDisallowed, .additionalPropertiesDisallowed, .missingType, .mixedTypeDisallowed]

/-- The codes of branches that break a tag. -/
def ofTags : List Code := [.missingConst, .duplicateConstValue]

/-- The codes of what is said about unions. -/
def ofUnions : List Code :=
  [.largeUnion, .nestedUnion, .unionNoDiscriminator, .additionalProperties] ++ ofTags

theorem not_mem_ofScale_of_mem_ofUnions {code : Code} (h : code ∈ ofUnions) : code ∉ ofScale := by
  revert h
  cases code <;> decide

end Code

/-! ### The codes of a check -/

@[simp] theorem findIf_true (place : Place) (problem : Problem) :
    findIf true place problem = [⟨place, problem⟩] := rfl

@[simp] theorem findIf_false (place : Place) (problem : Problem) :
    findIf false place problem = [] := rfl

theorem mem_findIf_iff {condition : Bool} {place : Place} {problem : Problem} {f : Finding} :
    f ∈ findIf condition place problem ↔ condition = true ∧ f = ⟨place, problem⟩ := by
  cases condition <;> simp

theorem findIf_eq_nil_iff {condition : Bool} {place : Place} {problem : Problem} :
    findIf condition place problem = [] ↔ condition = false := by
  cases condition <;> simp

theorem code_of_mem_scaleFindings {place : Place} {s : Schema} {f : Finding}
    (h : f ∈ scaleFindings place s) : f.problem.code ∈ Code.ofScale := by
  simp only [scaleFindings, compositionFindings, List.mem_append, mem_findIf_iff] at h
  rcases h with ((((⟨-, rfl⟩ | ⟨-, rfl⟩) | ⟨-, rfl⟩) | ⟨-, rfl⟩) | ⟨-, rfl⟩) | ⟨-, rfl⟩ <;>
    simp [Problem.code, Code.ofScale]

theorem code_of_mem_nameFindings {convention : NamingConvention} {place : Place}
    {names : List String} {f : Finding} (h : f ∈ nameFindings convention place names) :
    f.problem.code = .invalidPropertyCase := by
  obtain ⟨name, -, h⟩ := List.mem_flatMap.1 h
  obtain ⟨-, rfl⟩ := mem_findIf_iff.1 h
  rfl

/-- **What a scan may say about a slot**: the branch does not declare the field, or it declares the
field and leaves its value open or repeats one. -/
inductive ScanFinding (place : Place) (field : String) (index : Nat) : Finding → Prop
  | missing : ScanFinding place field index ⟨place.step (.branch index), .missingTag field⟩
  | unset : ScanFinding place field index
      ⟨(place.step (.branch index)).step (.property field), .openTag field⟩
  | again (tag : String) : ScanFinding place field index
      ⟨(place.step (.branch index)).step (.property field), .repeatedTag tag⟩

theorem scanFinding_of_mem_tagFindings {place : Place} {field : String} {seen : List String}
    {variants : List (Nat × Schema)} {f : Finding}
    (h : f ∈ tagFindings place field seen variants) :
    ∃ variant ∈ variants, ScanFinding place field variant.1 f := by
  induction variants generalizing seen with
  | nil => simp [tagFindings] at h
  | cons variant rest ih =>
      have later : ∀ {seen}, f ∈ tagFindings place field seen rest →
          ∃ v ∈ variant :: rest, ScanFinding place field v.1 f := fun h =>
        (ih h).imp fun v hv => ⟨List.mem_cons_of_mem _ hv.1, hv.2⟩
      simp only [tagFindings] at h
      split at h
      · rcases List.mem_cons.1 h with rfl | h
        · exact ⟨variant, List.mem_cons_self, .missing⟩
        · exact later h
      · split at h
        · rcases List.mem_cons.1 h with rfl | h
          · exact ⟨variant, List.mem_cons_self, .unset⟩
          · exact later h
        · split at h
          · exact later h
          · split at h
            · rcases List.mem_cons.1 h with rfl | h
              · exact ⟨variant, List.mem_cons_self, .again _⟩
              · exact later h
            · exact later h

theorem ScanFinding.code_mem {place : Place} {field : String} {index : Nat} {f : Finding}
    (h : ScanFinding place field index f) : f.problem.code ∈ Code.ofTags := by
  cases h with
  | missing => exact List.mem_cons_self
  | unset => exact List.mem_cons_self
  | again tag => exact List.mem_cons_of_mem _ List.mem_cons_self

namespace Union

/-- **What may be wrong with a union.** -/
inductive Finds (config : Config) (u : Union) : Finding → Prop
  | large : config.maxUnionVariants < u.branches.length →
      Finds config u ⟨u.place, .largeUnion u.branches.length config.maxUnionVariants⟩
  | nested : config.maxUnionDepth ≤ u.depth →
      Finds config u ⟨u.place, .nestedUnion (u.depth + 1) config.maxUnionDepth⟩
  | untagged : Finds config u ⟨u.place, .untaggedUnion u.keyword⟩
  | scan {variant : Nat × Schema} {field : String} {f : Finding} : variant ∈ u.variants →
      ScanFinding u.place field variant.1 f → Finds config u f
  | openVariant {variant : Nat × Schema} : variant ∈ u.variants → variant.2.isOpen = true →
      Finds config u ⟨u.place.step (.branch variant.1), .openVariant⟩

variable {config : Config} {u : Union} {f : Finding}

theorem scanFinding_of_mem_attemptFindings {attempt : Option String}
    (h : f ∈ u.attemptFindings attempt) :
    ∃ field, ∃ variant ∈ u.variants, ScanFinding u.place field variant.1 f := by
  cases attempt with
  | none => simp [attemptFindings] at h
  | some field => exact ⟨field, scanFinding_of_mem_tagFindings h⟩

theorem scanFinding_of_mem_verdictFindings {verdict : Verdict}
    (h : f ∈ u.verdictFindings verdict) :
    f = ⟨u.place, .untaggedUnion u.keyword⟩ ∨
      ∃ field, ∃ variant ∈ u.variants, ScanFinding u.place field variant.1 f := by
  cases verdict with
  | nullable => simp [verdictFindings] at h
  | referencesOnly => simp [verdictFindings] at h
  | tagged field => exact .inr ⟨field, scanFinding_of_mem_tagFindings h⟩
  | referencePair attempt => exact .inr (scanFinding_of_mem_attemptFindings h)
  | untagged attempt =>
      rcases List.mem_cons.1 h with rfl | h
      · exact .inl rfl
      · exact .inr (scanFinding_of_mem_attemptFindings h)
  | lone => simp [verdictFindings] at h

/-- The checks of a union find nothing but this. -/
theorem finds_of_mem_findings (h : f ∈ u.findings config) : u.Finds config f := by
  rw [findings] at h
  split at h
  · simp only [List.mem_append, mem_findIf_iff, decide_eq_true_eq] at h
    rcases h with ((⟨hlarge, rfl⟩ | ⟨hnested, rfl⟩) | h) | h
    · exact .large hlarge
    · exact .nested hnested
    · rcases scanFinding_of_mem_verdictFindings h with rfl | ⟨field, variant, hvariant, hf⟩
      · exact .untagged
      · exact .scan hvariant hf
    · obtain ⟨variant, hvariant, h⟩ := List.mem_flatMap.1 h
      obtain ⟨hopen, rfl⟩ := mem_findIf_iff.1 h
      exact .openVariant hvariant hopen
  · simp at h

theorem code_of_mem_openFindings (h : f ∈ u.openFindings) :
    f.problem.code = .additionalProperties := by
  obtain ⟨variant, -, h⟩ := List.mem_flatMap.1 h
  obtain ⟨-, rfl⟩ := mem_findIf_iff.1 h
  rfl

theorem code_of_mem_attemptFindings {attempt : Option String} (h : f ∈ u.attemptFindings attempt) :
    f.problem.code ∈ Code.ofTags := by
  obtain ⟨_, _, -, hf⟩ := scanFinding_of_mem_attemptFindings h
  exact hf.code_mem

theorem code_of_mem_verdictFindings {verdict : Verdict} (h : f ∈ u.verdictFindings verdict) :
    f.problem.code = .unionNoDiscriminator ∨ f.problem.code ∈ Code.ofTags := by
  rcases scanFinding_of_mem_verdictFindings h with rfl | ⟨_, _, -, hf⟩
  · exact .inl rfl
  · exact .inr hf.code_mem

theorem Finds.code_mem (h : u.Finds config f) : f.problem.code ∈ Code.ofUnions := by
  cases h with
  | large => exact List.mem_cons_self
  | nested => exact List.mem_cons_of_mem _ List.mem_cons_self
  | untagged => exact (by decide : Code.unionNoDiscriminator ∈ Code.ofUnions)
  | scan _ hf => exact List.mem_append_right _ hf.code_mem
  | openVariant => exact (by decide : Code.additionalProperties ∈ Code.ofUnions)

end Union

/-! ### Where a finding belongs -/

/-- The place one step before a place. -/
def Place.parent : Place → Place
  | .origin o => .origin o
  | .step p _ => p

/-- The place of the union that a finding about a union belongs to. -/
def Finding.owner (f : Finding) : Place :=
  match f.problem with
  | .missingTag _ | .openVariant => f.place.parent
  | .openTag _ | .repeatedTag _ => f.place.parent.parent
  | _ => f.place

/-- Where different things give what bears their names, that of one name comes from one of them. -/
theorem filter_flatMap_of_nodup {α β κ : Type} [DecidableEq κ] {l : List α} {name : α → κ}
    {bears : β → κ} {f : α → List β} (hn : (l.map name).Nodup)
    (hf : ∀ a ∈ l, ∀ b ∈ f a, bears b = name a) {a : α} (ha : a ∈ l) :
    (l.flatMap f).filter (fun b => bears b = name a) = f a := by
  induction l with
  | nil => cases ha
  | cons first rest ih =>
      obtain ⟨hfirst, hn⟩ := List.nodup_cons.1 hn
      obtain ⟨hf, hfrest⟩ := List.forall_mem_cons.1 hf
      rw [List.flatMap_cons, List.filter_append]
      rcases List.mem_cons.1 ha with rfl | ha
      · have own : (f a).filter (fun b => bears b = name a) = f a :=
          List.filter_eq_self.2 fun b hb => decide_eq_true (hf b hb)
        have others : (rest.flatMap f).filter (fun b => bears b = name a) = [] := by
          rw [List.filter_flatMap, List.flatMap_eq_nil_iff]
          refine fun c hc => List.filter_eq_nil_iff.2 fun b hb => ?_
          rw [decide_eq_true_eq, hfrest c hc b hb]
          exact fun heq => hfirst (heq ▸ List.mem_map_of_mem hc)
        rw [own, others, List.append_nil]
      · have nothing : (f first).filter (fun b => bears b = name a) = [] := by
          refine List.filter_eq_nil_iff.2 fun b hb => ?_
          rw [decide_eq_true_eq, hf b hb]
          exact fun heq => hfirst (heq ▸ List.mem_map_of_mem ha)
        rw [nothing, List.nil_append, ih hn hfrest ha]

namespace Union

variable {config : Config} {u : Union} {f : Finding}

/-- The findings of a union belong to it. -/
theorem Finds.owner_eq (h : u.Finds config f) : f.owner = u.place := by
  cases h with
  | large => rfl
  | nested => rfl
  | untagged => rfl
  | scan _ hf => cases hf <;> rfl
  | openVariant => rfl

theorem filter_owner_flatMap {unions : List Union}
    (hn : (unions.map Union.place).Nodup) (hu : u ∈ unions) :
    (unions.flatMap (findings config)).filter (fun f => f.owner = u.place) =
      u.findings config :=
  filter_flatMap_of_nodup hn (fun _ _ _ hf => (finds_of_mem_findings hf).owner_eq) hu

end Union

/-! ### Documents -/

/-- A filter that lets nothing of a list pass. -/
theorem filter_eq_nil_of_forall {p : Finding → Bool} {findings : List Finding}
    (h : ∀ f ∈ findings, p f = false) : findings.filter p = [] :=
  List.filter_eq_nil_iff.2 fun f hf => by simp [h f hf]

namespace Document

/-- The issues with some codes report the findings with these codes. -/
theorem filter_issues (config : Config) (d : Document) (p : Code → Bool) :
    (d.audit config).issues.filter (fun issue => p issue.code) =
      ((d.findings config).filter fun f => p f.problem.code).map Finding.issue := by
  rw [audit, List.filter_map]
  rfl

/-- **What is said about unions is found at the unions.** -/
theorem filter_findings (config : Config) (d : Document) {p : Code → Bool}
    (hp : ∀ code, p code = true → code ∈ Code.ofUnions) :
    (d.findings config).filter (fun f => p f.problem.code) =
      d.unions.flatMap fun u => (u.findings config).filter fun f => p f.problem.code := by
  have scale : ∀ code ∈ Code.ofScale, p code = false := fun code hcode =>
    Bool.eq_false_iff.2 fun h => Code.not_mem_ofScale_of_mem_ofUnions (hp code h) hcode
  have naming : p .invalidPropertyCase = false :=
    Bool.eq_false_iff.2 fun h => absurd (hp _ h) (by decide)
  rw [findings, unions, List.filter_flatMap]
  induction d.visits with
  | nil => rfl
  | cons v rest ih =>
      rw [List.flatMap_cons, ih]
      cases v with
      | schema place s =>
          have silent : (Visit.findings config (.schema place s)).filter
              (fun f => p f.problem.code) = [] := by
            refine filter_eq_nil_of_forall fun f hf => ?_
            simp only [Visit.findings] at hf
            split at hf
            · exact scale _ (code_of_mem_scaleFindings hf)
            · simp at hf
          simp [silent]
      | union u => simp [Visit.findings]
      | names place names =>
          have silent : (Visit.findings config (.names place names)).filter
              (fun f => p f.problem.code) = [] := by
            refine filter_eq_nil_of_forall fun f hf => ?_
            rw [code_of_mem_nameFindings hf]
            exact naming
          simp [silent]

/-- What is said about names is found where schemas are left. -/
theorem exists_names_of_mem_findings {config : Config} {d : Document} {f : Finding}
    (h : f ∈ d.findings config) (hcode : f.problem.code = .invalidPropertyCase) :
    ∃ place names, .names place names ∈ d.visits ∧ f ∈ nameFindings config.naming place names := by
  obtain ⟨v, hv, hf⟩ := List.mem_flatMap.1 h
  cases v with
  | schema place s =>
      rw [Visit.findings] at hf
      split at hf
      · have hscale := code_of_mem_scaleFindings hf
        rw [hcode] at hscale
        exact absurd hscale (by decide)
      · cases hf
  | union u =>
      have hunion := (Union.finds_of_mem_findings (show f ∈ u.findings config from hf)).code_mem
      rw [hcode] at hunion
      exact absurd hunion (by decide)
  | names place names => exact ⟨place, names, hv, hf⟩

theorem findings_unions (config : Config) (d : Document) :
    (d.findings config).filter (fun f => f.problem.code ∈ Code.ofUnions) =
      d.unions.flatMap (Union.findings config) := by
  rw [filter_findings config d (p := fun code => code ∈ Code.ofUnions)
    (fun code hcode => of_decide_eq_true hcode)]
  refine List.flatMap_congr fun u _ => List.filter_eq_self.2 fun f hf => ?_
  exact decide_eq_true (Union.finds_of_mem_findings hf).code_mem

/-- **The findings of a union can be told from all others** by their codes and their places. -/
theorem filter_owner (config : Config) {d : Document} {u : Union} (hu : u ∈ d.unions) :
    ((d.findings config).filter fun f => f.problem.code ∈ Code.ofUnions).filter
        (fun f => f.owner = u.place) =
      u.findings config := by
  rw [findings_unions]
  exact Union.filter_owner_flatMap d.nodup_places_unions hu

end Document

end SchemaAudit
