/-
**Tags of unions.**

A union is told apart by a field under which every inline branch has a tag of its own.  The checks
decide this by counting: as many different tags as inline branches.  A scan from left to right,
which remembers the tags that it has seen, points at the branches that break a tag.  This module
says what the count and the scan find in terms of single branches.

Main definitions:

* `Schema.tagState` — what a schema says about the tag under a field;
* `Union.HasVariant` — an inline branch at an index;
* `Union.DistinguishedBy`, `Union.AttemptedBy` — a field tells the inline branches apart, and two
  of them have a tag under it;
* `Union.Breaks` — **the rules of the scan**: what there is to say about a slot, given the field.

Main results:

* `Union.isTaggedBy_iff` — **counting different tags decides whether a field tells branches apart**;
* `Union.tagFindings_eq` — the scan finds, slot by slot, what the rules say;
* `Union.tagFindings_eq_nil` — it finds nothing where a field tells the branches apart;
* `Union.countP_tagFindings` — all but one of equal tags are repetitions.
-/

import Mathlib
import SchemaAudit.Audit.Check

set_option relaxedAutoImplicit false
set_option autoImplicit false

namespace SchemaAudit

/-! ### Different elements of a list -/

section Lists

variable {α : Type} [DecidableEq α]

theorem nodup_eraseDups : ∀ l : List α, l.eraseDups.Nodup
  | [] => by simp
  | a :: l => by
      rw [List.eraseDups_cons, List.nodup_cons]
      refine ⟨?_, nodup_eraseDups _⟩
      rw [List.mem_eraseDups, List.mem_filter]
      simp
termination_by l => l.length
decreasing_by exact Nat.lt_succ_of_le (List.length_filter_le _ _)

theorem length_eraseDups_eq_card (l : List α) : l.eraseDups.length = l.toFinset.card := by
  rw [← List.toFinset_card_of_nodup (nodup_eraseDups l)]
  congr 1
  ext a
  simp

theorem length_eraseDups_le (l : List α) : l.eraseDups.length ≤ l.length := by
  rw [length_eraseDups_eq_card]
  exact List.toFinset_card_le l

/-- Nothing is lost by erasing repetitions exactly when there are none. -/
theorem length_eraseDups_eq_iff {l : List α} : l.eraseDups.length = l.length ↔ l.Nodup := by
  rw [length_eraseDups_eq_card]
  exact Multiset.toFinset_card_eq_card_iff_nodup

end Lists

theorem two_le_length_iff {α : Type} {l : List α} (h : l.Nodup) :
    2 ≤ l.length ↔ ∃ a ∈ l, ∃ b ∈ l, a ≠ b := by
  match l with
  | [] => simp
  | [a] => simp
  | a :: b :: rest =>
      have hab : a ≠ b := by
        intro heq
        simp [heq] at h
      simp only [List.length_cons, Nat.le_add_left, true_iff]
      exact ⟨a, by simp, b, by simp, hab⟩

/-! ### What a branch says about a tag -/

namespace Schema

/-- What a schema says about the tag under a field: it may not declare the field, leave its value
open, give it a value that is no string, or a string. -/
def tagState (s : Schema) (field : String) : Option (Option (Option String)) :=
  (s.property? field).map fun property => property.keywords.const.map Json.Value.string?

theorem tag?_eq_join (s : Schema) (field : String) :
    s.tag? field = (s.tagState field).join.join := by
  simp only [tag?, tagState]
  rcases s.property? field with _ | property
  · rfl
  · rcases h : property.keywords.const with _ | value <;> simp [h]

theorem tagState_eq_of_tag? {s : Schema} {field tag : String} (h : s.tag? field = some tag) :
    s.tagState field = some (some (some tag)) := by
  rw [tag?_eq_join, Option.join_eq_some_iff, Option.join_eq_some_iff] at h
  exact h

end Schema

/-- One step of the scan. -/
theorem tagFindings_cons (place : Place) (field : String) (seen : List String) (index : Nat)
    (s : Schema) (rest : List (Nat × Schema)) :
    tagFindings place field seen ((index, s) :: rest) =
      match s.tagState field with
      | none => ⟨place.step (.branch index), .missingTag field⟩ :: tagFindings place field seen rest
      | some none =>
        ⟨(place.step (.branch index)).step (.property field), .openTag field⟩ ::
          tagFindings place field seen rest
      | some (some none) => tagFindings place field seen rest
      | some (some (some tag)) =>
        if seen.contains tag then
          ⟨(place.step (.branch index)).step (.property field), .repeatedTag tag⟩ ::
            tagFindings place field seen rest
        else tagFindings place field (tag :: seen) rest := by
  rw [tagFindings, Schema.tagState]
  rcases s.property? field with _ | property
  · rfl
  · rcases h : property.keywords.const with _ | value
    · simp [h]
    · rcases hvalue : value.string? with _ | tag <;> simp [h, hvalue]

/-! ### Inline branches -/

namespace Union

variable {u : Union} {field : String}

/-- The slot at an index holds a schema that is no reference. -/
def HasVariant (u : Union) (index : Nat) (s : Schema) : Prop :=
  u.branches[index]? = some (some s) ∧ s.isReference = false

theorem HasVariant.unique {index : Nat} {s t : Schema} (hs : u.HasVariant index s)
    (ht : u.HasVariant index t) : s = t := by
  have h := hs.1.symm.trans ht.1
  simpa using h

theorem mem_inlineFrom_iff {branches : List Slot} {start index : Nat} {s : Schema} :
    (index, s) ∈ inlineFrom start branches ↔
      (some s, index) ∈ branches.zipIdx start ∧ s.isReference = false := by
  induction branches generalizing start with
  | nil => simp [inlineFrom]
  | cons slot rest ih =>
      cases slot with
      | none => simp [inlineFrom, ih]
      | some t =>
          rw [inlineFrom]
          split
          · rename_i href
            rw [ih]
            simp only [List.zipIdx_cons, List.mem_cons, Prod.mk.injEq, Option.some.injEq]
            constructor
            · exact fun ⟨h, hs⟩ => ⟨.inr h, hs⟩
            · rintro ⟨⟨rfl, -⟩ | h, hs⟩
              · simp [href] at hs
              · exact ⟨h, hs⟩
          · rename_i href
            simp only [List.zipIdx_cons, List.mem_cons, ih, Prod.mk.injEq, Option.some.injEq]
            constructor
            · rintro (⟨rfl, rfl⟩ | ⟨h, hs⟩)
              · exact ⟨.inl ⟨rfl, rfl⟩, by simpa using href⟩
              · exact ⟨.inr h, hs⟩
            · rintro ⟨⟨rfl, rfl⟩ | h, hs⟩
              · exact .inl ⟨rfl, rfl⟩
              · exact .inr ⟨h, hs⟩

theorem mem_variants_iff {index : Nat} {s : Schema} :
    (index, s) ∈ u.variants ↔ u.HasVariant index s := by
  rw [variants, mem_inlineFrom_iff, List.mk_mem_zipIdx_iff_getElem?, HasVariant]

theorem pairwise_lt_inlineFrom (branches : List Slot) (start : Nat) :
    (inlineFrom start branches).Pairwise fun a b => a.1 < b.1 := by
  induction branches generalizing start with
  | nil => exact List.Pairwise.nil
  | cons slot rest ih =>
      cases slot with
      | none => exact ih (start + 1)
      | some s =>
          rw [inlineFrom]
          split
          · exact ih (start + 1)
          · refine List.pairwise_cons.2 ⟨fun v hv => ?_, ih (start + 1)⟩
            have := List.le_snd_of_mem_zipIdx (mem_inlineFrom_iff.1 hv).1
            exact this

/-- The indices of the inline branches ascend. -/
theorem pairwise_lt_variants (u : Union) : u.variants.Pairwise fun a b => a.1 < b.1 :=
  pairwise_lt_inlineFrom u.branches 0

theorem nodup_variants (u : Union) : u.variants.Nodup :=
  u.pairwise_lt_variants.imp fun {a b} h heq => absurd h (by simp [heq])

/-! ### Fields that tell branches apart -/

/-- Every inline branch has a tag under the field, and no two of them have the same one. -/
def DistinguishedBy (u : Union) (field : String) : Prop :=
  (∀ i s, u.HasVariant i s → ∃ tag, s.tag? field = some tag) ∧
    ∀ i j s t, u.HasVariant i s → u.HasVariant j t → s.tag? field = t.tag? field → i = j

/-- At least two inline branches have a tag under the field. -/
def AttemptedBy (u : Union) (field : String) : Prop :=
  ∃ i j s t, i ≠ j ∧ u.HasVariant i s ∧ u.HasVariant j t ∧
    (∃ tag, s.tag? field = some tag) ∧ ∃ tag, t.tag? field = some tag

/-- No tag occurs twice exactly when branches with the same tag are the same branch. -/
theorem nodup_tags_iff :
    (u.tags field).Nodup ↔
      ∀ i j s t tag, u.HasVariant i s → u.HasVariant j t → s.tag? field = some tag →
        t.tag? field = some tag → i = j := by
  rw [tags, List.nodup_iff_pairwise_ne, List.pairwise_filterMap]
  constructor
  · intro h i j s t tag hs ht hstag httag
    by_contra hne
    have symm : Std.Symm fun a b : Nat × Schema => ∀ x ∈ a.2.tag? field,
        ∀ y ∈ b.2.tag? field, x ≠ y :=
      ⟨fun a b hab x hx y hy heq => hab y hy x hx heq.symm⟩
    have hpair := h.forall (mem_variants_iff.2 hs) (mem_variants_iff.2 ht)
      (by simp [hne])
    exact hpair tag hstag tag httag rfl
  · intro h
    refine u.nodup_variants.pairwise_of_forall_ne ?_
    rintro ⟨i, s⟩ hs ⟨j, t⟩ ht hne tag hstag tag' httag rfl
    have hij := h i j s t tag (mem_variants_iff.1 hs) (mem_variants_iff.1 ht) hstag httag
    subst hij
    exact hne (by rw [(mem_variants_iff.1 hs).unique (mem_variants_iff.1 ht)])

/-- **Counting decides whether a field tells the branches apart**: there are as many different tags
as inline branches exactly when no tag is missing and none occurs twice. -/
theorem isTaggedBy_iff : u.isTaggedBy field = true ↔ u.DistinguishedBy field := by
  -- tags may be missing and tags may repeat, and either makes the count too small
  have htags : (u.tags field).length ≤ u.variants.length := List.length_filterMap_le _ _
  have hdups := length_eraseDups_le (u.tags field)
  have hcount : u.isTaggedBy field = true ↔
      (u.tags field).length = u.variants.length ∧ (u.tags field).Nodup := by
    rw [isTaggedBy, beq_iff_eq, ← length_eraseDups_eq_iff]
    omega
  rw [hcount, nodup_tags_iff, tags, List.filterMap_length_eq_length]
  constructor
  · rintro ⟨hall, hdistinct⟩
    have htag : ∀ i s, u.HasVariant i s → ∃ tag, s.tag? field = some tag := fun i s hs =>
      Option.isSome_iff_exists.1 (hall (i, s) (mem_variants_iff.2 hs))
    refine ⟨htag, fun i j s t hs ht heq => ?_⟩
    obtain ⟨tag, hstag⟩ := htag i s hs
    exact hdistinct i j s t tag hs ht hstag (heq ▸ hstag)
  · rintro ⟨hall, hdistinct⟩
    refine ⟨fun v hv => Option.isSome_iff_exists.2 (hall v.1 v.2 (mem_variants_iff.1 hv)), ?_⟩
    exact fun i j s t tag hs ht hstag httag => hdistinct i j s t hs ht (hstag.trans httag.symm)

/-- Counting tags decides whether two inline branches have one. -/
theorem two_le_countP_iff :
    2 ≤ (u.variants.countP fun v => (v.2.tag? field).isSome) ↔ u.AttemptedBy field := by
  rw [List.countP_eq_length_filter, two_le_length_iff (u.nodup_variants.filter _)]
  simp only [List.mem_filter, Option.isSome_iff_exists, Prod.exists, mem_variants_iff]
  constructor
  · rintro ⟨i, s, ⟨hs, hstag⟩, j, t, ⟨ht, httag⟩, hne⟩
    refine ⟨i, j, s, t, ?_, hs, ht, hstag, httag⟩
    rintro rfl
    exact hne (by rw [hs.unique ht])
  · rintro ⟨i, j, s, t, hne, hs, ht, hstag, httag⟩
    exact ⟨i, s, ⟨hs, hstag⟩, j, t, ⟨ht, httag⟩, by simp [hne]⟩

/-! ### The scan for broken tags -/

/-- A branch before the index has the tag. -/
def HasEarlier (u : Union) (field : String) (index : Nat) (tag : String) : Prop :=
  ∃ j t, j < index ∧ u.HasVariant j t ∧ t.tag? field = some tag

/-- **The rules of the scan**: what there is to say about the slot at an index when the field is
meant to tell the branches apart. -/
inductive Breaks (u : Union) (field : String) (index : Nat) : List Finding → Prop
  /-- There is no inline branch. -/
  | absent : (∀ s, ¬u.HasVariant index s) → Breaks u field index []
  /-- The branch does not declare the field. -/
  | missing {s : Schema} : u.HasVariant index s → s.property? field = none →
      Breaks u field index [⟨u.place.step (.branch index), .missingTag field⟩]
  /-- The branch declares the field, but no constant for it. -/
  | unset {s property : Schema} : u.HasVariant index s → s.property? field = some property →
      property.keywords.const = none →
      Breaks u field index
        [⟨(u.place.step (.branch index)).step (.property field), .openTag field⟩]
  /-- The constant is no string. -/
  | other {s property : Schema} {value : Json.Value} : u.HasVariant index s →
      s.property? field = some property → property.keywords.const = some value →
      value.string? = none → Breaks u field index []
  /-- The branch is the first one with its tag. -/
  | first {s : Schema} {tag : String} : u.HasVariant index s → s.tag? field = some tag →
      ¬u.HasEarlier field index tag → Breaks u field index []
  /-- An earlier branch has the same tag. -/
  | again {s : Schema} {tag : String} : u.HasVariant index s → s.tag? field = some tag →
      u.HasEarlier field index tag →
      Breaks u field index
        [⟨(u.place.step (.branch index)).step (.property field), .repeatedTag tag⟩]

theorem tag?_eq_some_iff {s : Schema} {tag : String} :
    s.tag? field = some tag ↔ ∃ property value, s.property? field = some property ∧
      property.keywords.const = some value ∧ value.string? = some tag := by
  simp only [Schema.tag?, Option.bind_eq_bind, Option.bind_eq_some_iff]
  constructor
  · rintro ⟨property, hproperty, value, hvalue, htag⟩
    exact ⟨property, value, hproperty, hvalue, htag⟩
  · rintro ⟨property, value, hproperty, hvalue, htag⟩
    exact ⟨property, hproperty, value, hvalue, htag⟩

/-- The rules have something to say about every slot, if only that there is nothing to say. -/
theorem exists_breaks (u : Union) (field : String) (index : Nat) :
    ∃ findings, u.Breaks field index findings := by
  by_cases hs : ∃ s, u.HasVariant index s
  · obtain ⟨s, hs⟩ := hs
    cases hproperty : s.property? field with
    | none => exact ⟨_, .missing hs hproperty⟩
    | some property =>
        cases hconst : property.keywords.const with
        | none => exact ⟨_, .unset hs hproperty hconst⟩
        | some value =>
            cases htag : value.string? with
            | none => exact ⟨_, .other hs hproperty hconst htag⟩
            | some tag =>
                have htag := tag?_eq_some_iff.2 ⟨property, value, hproperty, hconst, htag⟩
                by_cases hearlier : u.HasEarlier field index tag
                · exact ⟨_, .again hs htag hearlier⟩
                · exact ⟨_, .first hs htag hearlier⟩
  · exact ⟨[], .absent (by simpa using hs)⟩

theorem hasEarlier_succ_iff {index : Nat} {tag : String} :
    u.HasEarlier field (index + 1) tag ↔
      u.HasEarlier field index tag ∨ ∃ s, u.HasVariant index s ∧ s.tag? field = some tag := by
  constructor
  · rintro ⟨j, t, hj, ht, htag⟩
    rcases Nat.lt_succ_iff_lt_or_eq.1 hj with hj | rfl
    · exact .inl ⟨j, t, hj, ht, htag⟩
    · exact .inr ⟨t, ht, htag⟩
  · rintro (⟨j, t, hj, ht, htag⟩ | ⟨s, hs, htag⟩)
    · exact ⟨j, t, Nat.lt_succ_of_lt hj, ht, htag⟩
    · exact ⟨index, s, Nat.lt_succ_self _, hs, htag⟩

/-- The scan of one branch says what the rules say, and remembers the tag of the branch. -/
theorem exists_tagFindings_cons {index : Nat} {s : Schema} {findings : List Finding}
    {seen : List String} (hs : u.HasVariant index s) (h : u.Breaks field index findings)
    (hseen : ∀ tag, tag ∈ seen ↔ u.HasEarlier field index tag) (rest : List (Nat × Schema)) :
    ∃ seen', (∀ tag, tag ∈ seen' ↔ u.HasEarlier field (index + 1) tag) ∧
      tagFindings u.place field seen ((index, s) :: rest) =
        findings ++ tagFindings u.place field seen' rest := by
  have later : ∀ tag,
      u.HasEarlier field (index + 1) tag ↔ tag ∈ seen ∨ s.tag? field = some tag := by
    intro tag
    rw [hasEarlier_succ_iff, hseen]
    refine or_congr_right ⟨?_, fun h => ⟨s, hs, h⟩⟩
    rintro ⟨t, ht, htag⟩
    rwa [hs.unique ht]
  -- without a tag the memory of the scan stays as it is
  have untagged : s.tag? field = none → ∀ tag, tag ∈ seen ↔ u.HasEarlier field (index + 1) tag := by
    intro hnone tag
    simp [later, hnone]
  cases h with
  | absent h => exact absurd hs (h s)
  | missing ht hproperty =>
      cases hs.unique ht
      have hstate : s.tagState field = none := by simp [Schema.tagState, hproperty]
      exact ⟨seen, untagged (by simp [Schema.tag?_eq_join, hstate]), by
        rw [tagFindings_cons, hstate]; rfl⟩
  | unset ht hproperty hconst =>
      cases hs.unique ht
      have hstate : s.tagState field = some none := by simp [Schema.tagState, hproperty, hconst]
      exact ⟨seen, untagged (by simp [Schema.tag?_eq_join, hstate]), by
        rw [tagFindings_cons, hstate]; rfl⟩
  | other ht hproperty hconst hstring =>
      cases hs.unique ht
      have hstate : s.tagState field = some (some none) := by
        simp [Schema.tagState, hproperty, hconst, hstring]
      exact ⟨seen, untagged (by simp [Schema.tag?_eq_join, hstate]), by
        rw [tagFindings_cons, hstate]; rfl⟩
  | @first t tag ht htag hearlier =>
      cases hs.unique ht
      refine ⟨tag :: seen, fun x => ?_, ?_⟩
      · rw [later, htag, List.mem_cons, Option.some.injEq, or_comm, eq_comm]
      · rw [tagFindings_cons, Schema.tagState_eq_of_tag? htag]
        simp [(hseen tag).not.2 hearlier]
  | @again t tag ht htag hearlier =>
      cases hs.unique ht
      have hmem := (hseen tag).2 hearlier
      refine ⟨seen, fun x => ?_, ?_⟩
      · rw [later, htag, Option.some.injEq]
        exact ⟨.inl, fun h => h.elim id fun h => h ▸ hmem⟩
      · rw [tagFindings_cons, Schema.tagState_eq_of_tag? htag]
        simp [hmem]

theorem exists_seen (u : Union) (field : String) (index : Nat) :
    ∃ seen : List String, ∀ tag, tag ∈ seen ↔ u.HasEarlier field index tag := by
  refine ⟨(u.variants.filter fun v => v.1 < index).filterMap fun v => v.2.tag? field, ?_⟩
  intro tag
  simp only [List.mem_filterMap, List.mem_filter, decide_eq_true_eq, Prod.exists, HasEarlier,
    mem_variants_iff]
  constructor
  · rintro ⟨j, t, ⟨ht, hj⟩, htag⟩
    exact ⟨j, t, hj, ht, htag⟩
  · rintro ⟨j, t, hj, ht, htag⟩
    exact ⟨j, t, ⟨ht, hj⟩, htag⟩

/-- The rules do not contradict each other: what they say is what the scan finds. -/
theorem Breaks.unique {index : Nat} {findings findings' : List Finding}
    (h : u.Breaks field index findings) (h' : u.Breaks field index findings') :
    findings = findings' := by
  by_cases hs : ∃ s, u.HasVariant index s
  · obtain ⟨s, hs⟩ := hs
    obtain ⟨seen, hseen⟩ := exists_seen u field index
    obtain ⟨_, -, hscan⟩ := exists_tagFindings_cons hs h hseen []
    obtain ⟨_, -, hscan'⟩ := exists_tagFindings_cons hs h' hseen []
    simpa [tagFindings] using hscan.symm.trans hscan'
  · have nothing : ∀ {findings}, u.Breaks field index findings → findings = [] := by
      intro findings h
      cases h with
      | absent => rfl
      | missing ht => exact absurd ⟨_, ht⟩ hs
      | unset ht => exact absurd ⟨_, ht⟩ hs
      | other => rfl
      | first => rfl
      | again ht => exact absurd ⟨_, ht⟩ hs
    rw [nothing h, nothing h']

/-- The scan of the slots from some index on, with the tags of the slots before it in memory. -/
theorem tagFindings_inlineFrom {broken : Nat → List Finding}
    (hbroken : ∀ index, u.Breaks field index (broken index)) (rest done : List Slot)
    (seen : List String) (hu : u.branches = done ++ rest)
    (hseen : ∀ tag, tag ∈ seen ↔ u.HasEarlier field done.length tag) :
    tagFindings u.place field seen (inlineFrom done.length rest) =
      (List.range' done.length rest.length).flatMap broken := by
  induction rest generalizing done seen with
  | nil => rfl
  | cons slot rest ih =>
      have hslot : u.branches[done.length]? = some slot := by simp [hu]
      have step := fun seen hseen =>
        ih (done ++ [slot]) seen (by simp [hu]) (by simpa using hseen)
      simp only [List.length_append, List.length_cons, List.length_nil, Nat.zero_add] at step
      simp only [List.length_cons, List.range'_succ, List.flatMap_cons]
      -- a slot without an inline branch changes nothing
      have skip : (∀ s, ¬u.HasVariant done.length s) →
          tagFindings u.place field seen (inlineFrom (done.length + 1) rest) =
            broken done.length ++ (List.range' (done.length + 1) rest.length).flatMap broken := by
        intro hnone
        have hnil : broken done.length = [] := by
          have hrules := hbroken done.length
          generalize broken done.length = findings at hrules
          cases hrules with
          | absent _ => rfl
          | missing hs _ => exact absurd hs (hnone _)
          | unset hs _ _ => exact absurd hs (hnone _)
          | other hs _ _ _ => exact absurd hs (hnone _)
          | first hs _ _ => exact absurd hs (hnone _)
          | again hs _ _ => exact absurd hs (hnone _)
        rw [hnil, List.nil_append]
        refine step seen fun tag => ?_
        rw [hseen, hasEarlier_succ_iff]
        exact ⟨.inl, fun h => h.elim id fun ⟨s, hs, _⟩ => absurd hs (hnone s)⟩
      cases slot with
      | none => exact skip fun s hs => by simp [HasVariant, hslot] at hs
      | some s =>
          rw [inlineFrom]
          split
          · rename_i href
            refine skip fun t ht => ?_
            rw [HasVariant, hslot] at ht
            simp_all
          · rename_i href
            have hs : u.HasVariant done.length s := ⟨hslot, by simpa using href⟩
            obtain ⟨seen', hseen', h⟩ :=
              exists_tagFindings_cons hs (hbroken done.length) hseen
                (inlineFrom (done.length + 1) rest)
            rw [h, step seen' hseen']

/-- **The scan finds, slot by slot, what the rules say.** -/
theorem tagFindings_eq {broken : Nat → List Finding}
    (hbroken : ∀ index, u.Breaks field index (broken index)) :
    tagFindings u.place field [] u.variants =
      (List.range u.branches.length).flatMap broken := by
  rw [List.range_eq_range', variants]
  refine tagFindings_inlineFrom hbroken u.branches [] [] rfl fun tag => ?_
  simp [HasEarlier]

/-- **The scan is silent where a field tells the branches apart.** -/
theorem tagFindings_eq_nil (h : u.DistinguishedBy field) :
    tagFindings u.place field [] u.variants = [] := by
  have hbroken : ∀ index, u.Breaks field index [] := by
    intro index
    by_cases hs : ∃ s, u.HasVariant index s
    · obtain ⟨s, hs⟩ := hs
      obtain ⟨tag, htag⟩ := h.1 index s hs
      refine .first hs htag ?_
      rintro ⟨j, t, hj, ht, httag⟩
      exact absurd (h.2 j index t s ht hs (httag.trans htag.symm)) (Nat.ne_of_lt hj)
    · exact .absent (by simpa using hs)
  rw [tagFindings_eq hbroken]
  simp

/-- Every occurrence of a tag but the first one is a repetition. -/
theorem countP_tagFindings (place : Place) (field : String) (variants : List (Nat × Schema))
    (seen : List String) (tag : String) :
    (tagFindings place field seen variants).countP (fun f => f.problem = .repeatedTag tag) =
      (variants.filterMap fun v => v.2.tag? field).count tag -
        if tag ∈ seen then 0 else 1 := by
  induction variants generalizing seen with
  | nil => simp [tagFindings]
  | cons variant rest ih =>
      obtain ⟨index, s⟩ := variant
      have htag := s.tag?_eq_join field
      rw [tagFindings_cons]
      rcases hstate : s.tagState field with _ | _ | _ | x <;> rw [hstate] at htag
      · simp [ih, htag]
      · simp [ih, htag]
      · simp [ih, htag]
      · have htag : s.tag? field = some x := htag
        rw [List.filterMap_cons_some (f := fun v : Nat × Schema => v.2.tag? field) htag,
          List.count_cons]
        -- the tag counts as repeated from its second occurrence on
        by_cases hx : x ∈ seen
        · by_cases heq : x = tag
          · subst heq
            simp [ih, hx]
          · simp [ih, hx, heq]
        · by_cases heq : x = tag
          · subst heq
            simp [ih, hx]
          · have hne : tag ≠ x := fun h => heq h.symm
            simp [ih, hx, heq, hne]

end Union

end SchemaAudit
