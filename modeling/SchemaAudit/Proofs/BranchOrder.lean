/-
**The order of branches.**

The branches of a list of branches are looked at from left to right, and a scan for a tag remembers
what it has seen.  Yet documents that differ only in the order of branches, in whatever lists and at
whatever depth, have the same problems the same number of times, under the same definitions: what
the order decides is where they are reported.

Main definitions:

* `Schema.Reordered`, `Document.Reordered` — **the same up to the order of branches**, at any depth;
* `Union.tagStates` — what the inline branches of a union say about a tag;
* `Issue.unplaced` — an issue without its path.

Main results:

* `count_tagFindings` — the problems that a scan finds depend on how often each tag occurs;
* `Union.Reordered.perm_findings` — the problems of a union do not depend on the order of branches;
* `Document.audit_reordered` — **branch order only moves findings**.
-/

import SchemaAudit.Proofs.Identity
import SchemaAudit.Proofs.Judgement
import SchemaAudit.Proofs.Lockstep

set_option relaxedAutoImplicit false
set_option autoImplicit false

namespace SchemaAudit

/-! ### Reordered documents -/

/-- Two entries of the same name with related values. -/
inductive NameMap.EntryRel {α β : Type} (R : α → β → Prop) : String × α → String × β → Prop
  | intro (name : String) {value : α} {value' : β} (related : R value value') :
      EntryRel R (name, value) (name, value')

/-- Keywords that are the same but for the subschemas, which are related slot by slot. -/
inductive Keywords.Rel {α β : Type} (R : α → β → Prop) : Keywords α → Keywords β → Prop
  | intro (type : Option TypeDecl) (required : List String) (const : Option Json.Value)
      (enum : List Json.Value) (ref : String)
      {properties : List (String × Option α)} {properties' : List (String × Option β)}
      {items additional : Option α} {items' additional' : Option β}
      {anyOf oneOf allOf : List (Option α)} {anyOf' oneOf' allOf' : List (Option β)}
      (properties_rel : List.Forall₂ (NameMap.EntryRel (Option.Rel R)) properties properties')
      (items_rel : Option.Rel R items items') (additional_rel : Option.Rel R additional additional')
      (anyOf_rel : List.Forall₂ (Option.Rel R) anyOf anyOf')
      (oneOf_rel : List.Forall₂ (Option.Rel R) oneOf oneOf')
      (allOf_rel : List.Forall₂ (Option.Rel R) allOf allOf') :
      Rel R ⟨type, properties, required, items, additional, anyOf, oneOf, allOf, const, enum, ref⟩
        ⟨type, properties', required, items', additional', anyOf', oneOf', allOf', const, enum, ref⟩

/-- **Two schemas are the same up to the order of branches** in their lists of branches and in those
of all their parts. -/
inductive Schema.Reordered : Schema → Schema → Prop
  | boolean (value : Bool) : Reordered (.boolean value) (.boolean value)
  | object {keywords keywords' : Keywords Schema} {anyOf oneOf allOf : List Slot}
      (any : keywords.anyOf.Perm anyOf) (one : keywords.oneOf.Perm oneOf)
      (all : keywords.allOf.Perm allOf)
      (parts : Keywords.Rel Reordered { keywords with anyOf, oneOf, allOf } keywords') :
      Reordered (.object keywords) (.object keywords')

/-- Two documents are the same up to the order of branches in their schemas. -/
structure Document.Reordered (d e : Document) : Prop where
  root : d.root.Reordered e.root
  defs : List.Forall₂ (NameMap.EntryRel (Option.Rel Schema.Reordered)) d.defs e.defs
  definitions :
    List.Forall₂ (NameMap.EntryRel (Option.Rel Schema.Reordered)) d.definitions e.definitions

theorem Schema.reordered_refl (s : Schema) : s.Reordered s := by
  induction s using Schema.inductionOn with
  | boolean value => exact .boolean value
  | object keywords ih =>
      have slot : ∀ slot : Slot, (∀ s, slot = some s → s ∈ keywords.subschemas) →
          Option.Rel Schema.Reordered slot slot := by
        rintro (_ | s) hslot
        · exact .none
        · exact .some (ih s (hslot s rfl))
      have slots : ∀ branches : List Slot, (∀ s, some s ∈ branches → s ∈ keywords.subschemas) →
          List.Forall₂ (Option.Rel Schema.Reordered) branches branches := by
        intro branches hbranches
        exact List.forall₂_same.2 fun branch h => slot branch fun s hs => hbranches s (hs ▸ h)
      refine .object (.refl _) (.refl _) (.refl _) (.intro _ _ _ _ _ ?_ ?_ ?_ ?_ ?_ ?_)
      · refine List.forall₂_same.2 ?_
        rintro ⟨name, value⟩ hentry
        refine .intro name (slot value fun s hs => ?_)
        exact Keywords.mem_subschemas_iff.2 (.inl ⟨name, hs ▸ hentry⟩)
      · exact slot _ fun s hs => Keywords.mem_subschemas_iff.2 (by simp [hs])
      · exact slot _ fun s hs => Keywords.mem_subschemas_iff.2 (by simp [hs])
      · exact slots _ fun s hs => Keywords.mem_subschemas_iff.2 (by simp [hs])
      · exact slots _ fun s hs => Keywords.mem_subschemas_iff.2 (by simp [hs])
      · exact slots _ fun s hs => Keywords.mem_subschemas_iff.2 (by simp [hs])

/-! ### Related parts -/

theorem isEmpty_eq_of_length_eq {α β : Type} {l : List α} {l' : List β}
    (h : l.length = l'.length) : l.isEmpty = l'.isEmpty := by
  rw [Bool.eq_iff_iff, List.isEmpty_iff_length_eq_zero, List.isEmpty_iff_length_eq_zero, h]

theorem isSome_eq_of_rel {α β : Type} {R : α → β → Prop} {a : Option α} {b : Option β}
    (h : Option.Rel R a b) : a.isSome = b.isSome := by
  cases h <;> rfl

theorem NameMap.names_eq_of_rel {α β : Type} {R : α → β → Prop} {m : NameMap α} {m' : NameMap β}
    (h : List.Forall₂ (EntryRel R) m m') : m.names = m'.names := by
  induction h with
  | nil => rfl
  | cons hentry _ ih =>
      cases hentry
      exact congrArg (List.cons _) ih

namespace Record

/-- With distinct names, the order of entries does not matter for what is found under a name. -/
theorem lookup_eq_of_perm {α : Type} {r r' : Record α} (names : (r.map Prod.fst).Nodup)
    (perm : r.Perm r') (name : String) : List.lookup name r = List.lookup name r' := by
  refine Option.ext fun value => ?_
  rw [lookup_eq_some_iff names, lookup_eq_some_iff ((perm.map Prod.fst).nodup_iff.1 names),
    perm.mem_iff]

variable {α β : Type} {R Q : α → β → Prop} {r mid : Record α} {r' : Record β} {name : String}

/-- Entries that are related one by one have related values under each name. -/
theorem lookup_rel_of_forall₂ (related : List.Forall₂ (NameMap.EntryRel R) r r')
    (hQ : ∀ v w, (name, v) ∈ r → R v w → Q v w) :
    Option.Rel Q (List.lookup name r) (List.lookup name r') := by
  induction related with
  | nil => exact .none
  | @cons entry entry' rest rest' hentry _ ih =>
      cases hentry with
      | intro key hvalue =>
          rw [List.lookup_cons, List.lookup_cons]
          split
          · rename_i hname
            obtain rfl := beq_iff_eq.1 hname
            exact .some (hQ _ _ List.mem_cons_self hvalue)
          · exact ih fun v w hv => hQ v w (List.mem_cons_of_mem _ hv)

/-- With distinct names, related entries in any order have related values under each name. -/
theorem lookup_rel (names : (r.map Prod.fst).Nodup) (perm : r.Perm mid)
    (related : List.Forall₂ (NameMap.EntryRel R) mid r')
    (hQ : ∀ v w, (name, v) ∈ r → R v w → Q v w) :
    Option.Rel Q (List.lookup name r) (List.lookup name r') := by
  rw [lookup_eq_of_perm names perm]
  exact lookup_rel_of_forall₂ related fun v w hv => hQ v w (perm.mem_iff.2 hv)

end Record

section Parts

variable {R : Schema → Schema → Prop} {S : Site → Site → Prop} {m m' : NameMap Slot}

theorem NameMap.join_find?_rel (h : List.Forall₂ (EntryRel (Option.Rel R)) m m') (name : String) :
    Option.Rel R (m.find? name).join (m'.find? name).join := by
  have found : Option.Rel (Option.Rel R) (m.find? name) (m'.find? name) :=
    Record.lookup_rel_of_forall₂ h fun _ _ _ => id
  generalize m.find? name = slot at found ⊢
  generalize m'.find? name = slot' at found ⊢
  cases found with
  | none => exact .none
  | some hslot => exact hslot

theorem DefinitionGroup.roots_rel (group : DefinitionGroup)
    (h : List.Forall₂ (NameMap.EntryRel (Option.Rel R)) m m') :
    List.Forall₂ (fun a b => a.1 = b.1 ∧ R a.2 b.2) (group.roots m) (group.roots m') := by
  refine List.rel_filterMap ?_ h
  rintro _ _ ⟨name, hst | -⟩
  · exact .some ⟨rfl, hst⟩
  · exact .none

/-- Documents whose schemas are related are entered at related sites. -/
theorem Document.sites_rel {d e : Document} (root : R d.root e.root)
    (defs : List.Forall₂ (NameMap.EntryRel (Option.Rel R)) d.defs e.defs)
    (definitions : List.Forall₂ (NameMap.EntryRel (Option.Rel R)) d.definitions e.definitions)
    (site : ∀ origin s t, R s t → S ⟨.origin origin, 0, s⟩ ⟨.origin origin, 0, t⟩) :
    List.Forall₂ S d.sites e.sites := by
  refine List.rel_map ?_ (.cons ⟨rfl, root⟩ (List.rel_append
    (DefinitionGroup.defs.roots_rel defs) (DefinitionGroup.definitions.roots_rel definitions)))
  rintro ⟨origin, s⟩ ⟨_, t⟩ ⟨rfl, hst⟩
  exact site origin s t hst

namespace Site

variable {x y : Site} (part : ∀ step s t, R s t → S (x.part step s) (y.part step t))

include part

theorem properties_rel (h : List.Forall₂ (NameMap.EntryRel (Option.Rel R)) x.schema.properties
    y.schema.properties) : List.Forall₂ S x.properties y.properties := by
  refine List.rel_filterMap ?_ h
  rintro _ _ ⟨name, hst | -⟩
  · exact .some (part _ _ _ hst)
  · exact .none

theorem others_rel (items : Option.Rel R x.schema.keywords.items y.schema.keywords.items)
    (additional : Option.Rel R x.schema.additional? y.schema.additional?) :
    List.Forall₂ S x.others y.others := by
  have slot : ∀ {step : Step} {slot slot' : Slot}, Option.Rel R slot slot' →
      List.Forall₂ S (slot.toList.map (x.part step)) (slot'.toList.map (y.part step)) := by
    rintro step _ _ (hst | -)
    · exact .cons (part step _ _ hst) .nil
    · exact .nil
  exact List.rel_append (slot items) (slot additional)

end Site

end Parts

/-! ### What the order of branches does not touch -/

namespace Schema.Reordered

variable {s t : Schema} (h : s.Reordered t)

include h

theorem keywords_eq :
    s.keywords.type = t.keywords.type ∧ s.keywords.const = t.keywords.const ∧
      s.keywords.enum = t.keywords.enum ∧ s.keywords.ref = t.keywords.ref := by
  cases h with
  | boolean value => exact ⟨rfl, rfl, rfl, rfl⟩
  | object any one all parts =>
      cases parts
      exact ⟨rfl, rfl, rfl, rfl⟩

theorem properties_rel :
    List.Forall₂ (NameMap.EntryRel (Option.Rel Schema.Reordered)) s.properties t.properties := by
  cases h with
  | boolean value => exact .nil
  | object any one all parts =>
      cases parts
      assumption

theorem items_rel : Option.Rel Schema.Reordered s.keywords.items t.keywords.items := by
  cases h with
  | boolean value => exact .none
  | object any one all parts =>
      cases parts
      assumption

theorem additional_rel :
    Option.Rel Schema.Reordered s.keywords.additional t.keywords.additional := by
  cases h with
  | boolean value => exact .none
  | object any one all parts =>
      cases parts
      assumption

/-- The branches under a keyword are reordered, and each of them may be reordered inside. -/
theorem branches (keyword : Composition) :
    Reordering (Option.Rel Schema.Reordered) (s.branches keyword) (t.branches keyword) := by
  cases h with
  | boolean value => cases keyword <;> exact .of_forall₂ .nil
  | object any one all parts =>
      cases parts with
      | intro _ _ _ _ _ _ _ _ anyOf oneOf allOf =>
          cases keyword with
          | anyOf => exact ⟨_, any, anyOf⟩
          | oneOf => exact ⟨_, one, oneOf⟩
          | allOf => exact ⟨_, all, allOf⟩

theorem isReference_eq : s.isReference = t.isReference := by
  obtain ⟨-, -, -, ref⟩ := h.keywords_eq
  rw [isReference, isReference, ref]

theorem hasType_eq : s.hasType = t.hasType := by
  obtain ⟨type, -⟩ := h.keywords_eq
  rw [hasType, hasType, type]

theorem singleType?_eq : s.singleType? = t.singleType? := by
  obtain ⟨type, -⟩ := h.keywords_eq
  rw [singleType?, singleType?, type]

theorem typeList_eq : s.typeList = t.typeList := by
  obtain ⟨type, -⟩ := h.keywords_eq
  rw [typeList, typeList, type]

theorem isOpen_eq : s.isOpen = t.isOpen := by
  have hslot := h.additional_rel
  rw [isOpen, isOpen]
  generalize s.keywords.additional = slot at hslot ⊢
  generalize t.keywords.additional = slot' at hslot ⊢
  cases hslot with
  | none => rfl
  | some hparts => cases hparts <;> rfl

theorem additional?_rel : Option.Rel Schema.Reordered s.additional? t.additional? := by
  have hslot := h.additional_rel
  rw [additional?, additional?]
  generalize s.keywords.additional = slot at hslot ⊢
  generalize t.keywords.additional = slot' at hslot ⊢
  cases hslot with
  | none => exact .none
  | some hparts =>
      cases hparts with
      | boolean value => exact .none
      | object any one all parts => exact .some (.object any one all parts)

theorem names_eq : s.properties.names = t.properties.names :=
  NameMap.names_eq_of_rel h.properties_rel

theorem property?_rel (name : String) :
    Option.Rel Schema.Reordered (s.property? name) (t.property? name) :=
  NameMap.join_find?_rel h.properties_rel name

theorem tagState_eq (field : String) : s.tagState field = t.tagState field := by
  have hslot := h.property?_rel field
  rw [tagState, tagState]
  generalize s.property? field = slot at hslot ⊢
  generalize t.property? field = slot' at hslot ⊢
  cases hslot with
  | none => rfl
  | some hproperty =>
      obtain ⟨-, const, -⟩ := hproperty.keywords_eq
      rw [Option.map_some, Option.map_some, const]

theorem isMeaningful_eq : s.isMeaningful = t.isMeaningful := by
  obtain ⟨-, const, enum, -⟩ := h.keywords_eq
  have properties : s.properties.isEmpty = t.properties.isEmpty :=
    isEmpty_eq_of_length_eq h.properties_rel.length_eq
  rw [isMeaningful, isMeaningful, properties, isSome_eq_of_rel h.items_rel, const, enum]

theorem isEmpty_branches_eq (keyword : Composition) :
    (s.branches keyword).isEmpty = (t.branches keyword).isEmpty :=
  isEmpty_eq_of_length_eq (h.branches keyword).length_eq

/-- A reordered branch is the same for a verdict. -/
theorem sameRole : s.SameRole t := by
  refine ⟨h.isReference_eq, ?_, ?_, ?_, fun _ => h.tagState_eq⟩
  · rw [h.singleType?_eq]
  · rw [h.hasType_eq, h.isReference_eq]
  · obtain ⟨-, -, -, ref⟩ := h.keywords_eq
    rw [isReferenceSide, isReferenceSide, isSome_eq_of_rel (h.property?_rel referenceProperty),
      h.isReference_eq, ref]

end Schema.Reordered

/-! ### The scan for a tag -/

/-- What is said about a branch that has a tag state, whatever comes before it. -/
def ownProblem? (field : String) : Option (Option (Option String)) → Option Problem
  | none => some (.missingTag field)
  | some none => some (.openTag field)
  | some (some _) => none

/-- The tags can be told from what is said about them. -/
theorem filterMap_tag?_eq (variants : List (Nat × Schema)) (field : String) :
    (variants.filterMap fun v => v.2.tag? field) =
      (variants.map fun v => v.2.tagState field).filterMap fun state => state.join.join := by
  rw [List.filterMap_map]
  exact List.filterMap_congr fun v _ => v.2.tag?_eq_join field

theorem map_problem_findIf (condition : Bool) (place : Place) (problem : Problem) :
    (findIf condition place problem).map Finding.problem = if condition then [problem] else [] := by
  cases condition <;> rfl

theorem count_map_problem (findings : List Finding) (problem : Problem) :
    (findings.map Finding.problem).count problem =
      findings.countP fun f => f.problem = problem := by
  rw [List.count, List.countP_map]
  rfl

/-- Repetitions aside, a scan says about a branch what it says whatever comes before. -/
theorem countP_tagFindings_of_ne {problem : Problem} (h : ∀ tag, problem ≠ .repeatedTag tag)
    (place : Place) (field : String) (seen : List String) (variants : List (Nat × Schema)) :
    (tagFindings place field seen variants).countP (fun f => f.problem = problem) =
      (variants.map fun v => v.2.tagState field).countP fun state =>
        ownProblem? field state = some problem := by
  induction variants generalizing seen with
  | nil => rfl
  | cons variant rest ih =>
      obtain ⟨index, s⟩ := variant
      rw [tagFindings_cons, List.map_cons, List.countP_cons]
      rcases hstate : s.tagState field with _ | _ | _ | tag
      · simp [ih, List.countP_cons, ownProblem?]
      · simp [ih, List.countP_cons, ownProblem?]
      · simp [ih, ownProblem?]
      · have hne := (h tag).symm
        by_cases hseen : tag ∈ seen
        · simp [hseen, ih, ownProblem?, hne]
        · simp [hseen, ih, ownProblem?]

/-- **The problems that a scan finds depend on how often each tag occurs**, and not on the order of
the branches. -/
theorem perm_tagFindings {field : String} {variants variants' : List (Nat × Schema)}
    (h : (variants.map fun v => v.2.tagState field).Perm
      (variants'.map fun v => v.2.tagState field)) (place place' : Place) :
    ((tagFindings place field [] variants).map Finding.problem).Perm
      ((tagFindings place' field [] variants').map Finding.problem) := by
  rw [List.perm_iff_count]
  intro problem
  rw [count_map_problem, count_map_problem]
  by_cases hrepeated : ∃ tag, problem = .repeatedTag tag
  · obtain ⟨tag, rfl⟩ := hrepeated
    rw [Union.countP_tagFindings, Union.countP_tagFindings, filterMap_tag?_eq, filterMap_tag?_eq,
      (h.filterMap _).count_eq]
  · have hne : ∀ tag, problem ≠ .repeatedTag tag := fun tag htag => hrepeated ⟨tag, htag⟩
    rw [countP_tagFindings_of_ne hne, countP_tagFindings_of_ne hne, h.countP_eq]

/-! ### Unions -/

/-- Two unions are the same up to the order of branches; they stand under the same definition. -/
structure Union.Reordered (u u' : Union) : Prop where
  start : u.place.start = u'.place.start
  keyword : u.keyword = u'.keyword
  depth : u.depth = u'.depth
  branches : Reordering (Option.Rel Schema.Reordered) u.branches u'.branches

section

variable {branches branches' : List Slot}

theorem any_reduceOption_eq_of_perm (h : branches.Perm branches') (p : Schema → Bool) :
    branches.reduceOption.any p = branches'.reduceOption.any p :=
  (h.filterMap id).any_eq

theorem isNullable_eq_of_perm (h : branches.Perm branches') :
    isNullable branches = isNullable branches' := by
  simp only [isNullable, h.length_eq, any_reduceOption_eq_of_perm h]

theorem isReferencesOnly_eq_of_perm (h : branches.Perm branches') :
    isReferencesOnly branches = isReferencesOnly branches' := by
  simp only [isReferencesOnly, List.all_eq_not_any_not, any_reduceOption_eq_of_perm h]

theorem isReferencePair_eq_of_perm (h : branches.Perm branches') :
    isReferencePair branches = isReferencePair branches' := by
  simp only [isReferencePair, h.length_eq, any_reduceOption_eq_of_perm h]

/-- The inline branches, without their indices. -/
theorem map_snd_inlineFrom (index : Nat) (branches : List Slot) :
    (inlineFrom index branches).map Prod.snd =
      branches.reduceOption.filter fun s => !s.isReference := by
  induction branches generalizing index with
  | nil => rfl
  | cons slot rest ih =>
      cases slot with
      | none => simpa [inlineFrom] using ih (index + 1)
      | some s =>
          rw [inlineFrom]
          cases href : s.isReference <;> simp [href, ih]

end

namespace Union

/-- What the inline branches say about the tag under a field. -/
def tagStates (u : Union) (field : String) : List (Option (Option (Option String))) :=
  u.variants.map fun variant => variant.2.tagState field

variable {u u' : Union}

theorem attemptedField?_eq (u : Union) (fields : List String) :
    u.attemptedField? fields =
      fields.find? fun field =>
        2 ≤ (u.tagStates field).countP fun state => state.join.join.isSome := by
  simp only [attemptedField?, tagStates, List.countP_map, Schema.tag?_eq_join, Function.comp_def]

namespace Reordered

variable (h : u.Reordered u')

include h

theorem parts : Reordering Schema.Reordered u.branches.reduceOption u'.branches.reduceOption :=
  h.branches.filterMap fun _ _ hslot => hslot

theorem variants :
    Reordering Schema.Reordered (u.variants.map Prod.snd) (u'.variants.map Prod.snd) := by
  rw [Union.variants, Union.variants, map_snd_inlineFrom, map_snd_inlineFrom]
  exact h.parts.filter fun s t hst => by rw [hst.isReference_eq]

/-- What is the same of reordered inline branches makes the same list, up to order. -/
theorem perm_variants {γ : Type} {f : Schema → γ} (hf : ∀ s t, s.Reordered t → f s = f t) :
    (u.variants.map fun v => f v.2).Perm (u'.variants.map fun v => f v.2) := by
  simpa [Function.comp_def] using h.variants.perm_map hf

theorem perm_tagStates (field : String) : (u.tagStates field).Perm (u'.tagStates field) :=
  h.perm_variants fun _ _ hst => hst.tagState_eq field

/-- Up to order the branches have the same roles. -/
theorem sameRole : Reordering (Option.Rel Schema.SameRole) u.branches u'.branches := by
  obtain ⟨mid, perm, related⟩ := h.branches
  refine ⟨mid, perm, related.imp ?_⟩
  rintro _ _ (hst | -)
  · exact .some hst.sameRole
  · exact .none

theorem isNullable_eq : isNullable u.branches = isNullable u'.branches := by
  obtain ⟨mid, perm, related⟩ := h.sameRole
  rw [isNullable_eq_of_perm perm, isNullable_eq_of_sameRole related]

theorem isReferencesOnly_eq : isReferencesOnly u.branches = isReferencesOnly u'.branches := by
  obtain ⟨mid, perm, related⟩ := h.sameRole
  rw [isReferencesOnly_eq_of_perm perm, isReferencesOnly_eq_of_sameRole related]

theorem isReferencePair_eq : isReferencePair u.branches = isReferencePair u'.branches := by
  obtain ⟨mid, perm, related⟩ := h.sameRole
  rw [isReferencePair_eq_of_perm perm, isReferencePair_eq_of_sameRole related]

theorem isExamined_eq : u.isExamined = u'.isExamined := by
  rw [isExamined, isExamined, h.isNullable_eq, h.isReferencesOnly_eq]

theorem length_variants_eq : u.variants.length = u'.variants.length := by
  simpa using h.variants.length_eq

/-- Whether a field tells the branches apart is a matter of how many different tags there are. -/
theorem isTaggedBy_eq (field : String) : u.isTaggedBy field = u'.isTaggedBy field := by
  have perm : (u.tags field).Perm (u'.tags field) := by
    rw [tags, tags, filterMap_tag?_eq, filterMap_tag?_eq]
    exact (h.perm_tagStates field).filterMap _
  rw [isTaggedBy, isTaggedBy, length_eraseDups_eq_card, length_eraseDups_eq_card,
    List.toFinset_eq_of_perm _ _ perm, h.length_variants_eq]

theorem tagField?_eq (fields : List String) : u.tagField? fields = u'.tagField? fields := by
  have tagged : u.isTaggedBy = u'.isTaggedBy := by
    funext field
    exact h.isTaggedBy_eq field
  rw [tagField?, tagField?, h.branches.length_eq, isEmpty_eq_of_length_eq h.length_variants_eq,
    tagged]

theorem attemptedField?_eq (fields : List String) :
    u.attemptedField? fields = u'.attemptedField? fields := by
  rw [Union.attemptedField?_eq, Union.attemptedField?_eq]
  simp only [(h.perm_tagStates _).countP_eq]

theorem verdict_eq (fields : List String) : u.verdict fields = u'.verdict fields := by
  rw [verdict, verdict, h.isNullable_eq, h.isReferencesOnly_eq, h.isReferencePair_eq,
    h.branches.length_eq, h.tagField?_eq, h.attemptedField?_eq]

theorem perm_verdictFindings (verdict : Verdict) :
    ((u.verdictFindings verdict).map Finding.problem).Perm
      ((u'.verdictFindings verdict).map Finding.problem) := by
  rw [verdictFindings_eq, verdictFindings_eq, List.map_append, List.map_append,
    map_problem_findIf, map_problem_findIf, h.keyword]
  refine .append_left _ ?_
  cases verdict.field? with
  | none => exact .refl _
  | some field => exact perm_tagFindings (h.perm_tagStates field) _ _

theorem perm_openFindings :
    (u.openFindings.map Finding.problem).Perm (u'.openFindings.map Finding.problem) := by
  have flat : ∀ u : Union, u.openFindings.map Finding.problem =
      (u.variants.map fun v => v.2.isOpen).flatMap fun isOpen =>
        if isOpen then [.openVariant] else [] := by
    intro u
    rw [openFindings, List.map_flatMap, List.flatMap_map]
    exact List.flatMap_congr fun v _ => map_problem_findIf _ _ _
  rw [flat, flat]
  exact (h.perm_variants fun _ _ hst => hst.isOpen_eq).flatMap_right _

/-- **What is wrong with a union does not depend on the order of its branches.** -/
theorem perm_findings (config : Config) :
    ((u.findings config).map Finding.problem).Perm
      ((u'.findings config).map Finding.problem) := by
  rw [findings, findings, h.isExamined_eq]
  split
  · simp only [List.map_append, map_problem_findIf, h.branches.length_eq, h.depth, h.verdict_eq]
    exact ((h.perm_verdictFindings _).append_left _).append h.perm_openFindings
  · exact .refl _

end Reordered

end Union

/-! ### Sites -/

/-- Two sites under the same definition whose schemas are the same up to the order of branches. -/
def Site.Reordered (x y : Site) : Prop :=
  x.place.start = y.place.start ∧ x.depth = y.depth ∧ x.schema.Reordered y.schema

/-- The branches of a union, as sites without their indices. -/
theorem Union.map_sites (u : Union) :
    (u.sites.map fun x => (x.place.start, x.depth, x.schema)) =
      u.branches.reduceOption.map fun s => (u.place.start, u.depth + 1, s) := by
  have slots : u.branches.reduceOption = (u.branches.zipIdx.map Prod.fst).reduceOption := by
    rw [List.zipIdx_map_fst]
  rw [slots, sites, List.reduceOption, List.filterMap_map, List.map_filterMap, List.map_filterMap]
  refine List.filterMap_congr fun slot _ => ?_
  rcases slot with ⟨_ | s, index⟩ <;> rfl

theorem Union.Reordered.entered {u u' : Union} (h : u.Reordered u') :
    Reordering Site.Reordered u.entered u'.entered := by
  rw [Union.entered, Union.entered, h.isExamined_eq]
  split
  · refine Reordering.of_map (S := fun p q => p.1 = q.1 ∧ p.2.1 = q.2.1 ∧ p.2.2.Reordered q.2.2)
      (f := fun x : Site => (x.place.start, x.depth, x.schema))
      (g := fun x : Site => (x.place.start, x.depth, x.schema)) ?_
    rw [Union.map_sites, Union.map_sites]
    exact h.parts.map fun s t hst => ⟨h.start, congrArg (· + 1) h.depth, hst⟩
  · exact .of_forall₂ .nil

namespace Site.Reordered

variable {x y : Site} (h : x.Reordered y)

include h

theorem union (keyword : Composition) : (x.union keyword).Reordered (y.union keyword) where
  start := h.1
  keyword := rfl
  depth := h.2.1
  branches := h.2.2.branches keyword

theorem part (step : Step) {s t : Schema} (hst : s.Reordered t) :
    (x.part step s).Reordered (y.part step t) :=
  ⟨h.1, h.2.1, hst⟩

theorem properties : List.Forall₂ Site.Reordered x.properties y.properties :=
  Site.properties_rel (fun step _ _ hst => h.part step hst) h.2.2.properties_rel

theorem others : List.Forall₂ Site.Reordered x.others y.others :=
  Site.others_rel (fun step _ _ hst => h.part step hst) h.2.2.items_rel h.2.2.additional?_rel

/-- The walks go on to sites that are reordered again. -/
theorem entered : Reordering Site.Reordered x.entered y.entered :=
  (((h.union .anyOf).entered.append (h.union .oneOf).entered).append
    (.of_forall₂ h.properties)).append (.of_forall₂ h.others)

end Site.Reordered

/-! ### What is left of a finding without its place -/

/-- A finding with only the definition under which it stands instead of its place. -/
def Finding.content (f : Finding) : Origin × Problem := (f.place.start, f.problem)

/-- An issue without its path. -/
def Issue.unplaced (i : Issue) : Issue := { i with path := "" }

/-- The issue that reports a finding, without its path. -/
def unplacedIssue (content : Origin × Problem) : Issue where
  code := content.2.code
  severity := content.2.severity
  path := ""
  message := content.2.message
  suggestion := some content.2.suggestion
  typeName := content.1.typeName?

theorem Finding.unplaced_issue (f : Finding) : f.issue.unplaced = unplacedIssue f.content := rfl

theorem Code.start_label (code : Code) (place : Place) :
    (code.label place).2.start = place.start := by
  have parent : ∀ place : Place, place.parent.start = place.start := by
    rintro (_ | _) <;> rfl
  have union : ∀ place : Place, place.union.start = place.start := by
    intro place
    unfold Place.union
    split <;> rfl
  cases code <;> first | rfl | exact parent place | exact union place

/-- All findings of a stop stand under the definition of the stop. -/
theorem Visit.map_content (config : Config) (v : Visit) :
    (v.findings config).map Finding.content =
      ((v.findings config).map Finding.problem).map (Prod.mk v.label.2.start) := by
  rw [List.map_map]
  refine List.map_congr_left fun f hf => ?_
  rw [Visit.label_eq_of_mem_findings hf, Code.start_label]
  rfl

theorem Visit.perm_content {config : Config} {v w : Visit}
    (start : v.label.2.start = w.label.2.start)
    (h : ((v.findings config).map Finding.problem).Perm ((w.findings config).map Finding.problem)) :
    ((v.findings config).map Finding.content).Perm ((w.findings config).map Finding.content) := by
  rw [Visit.map_content, Visit.map_content, start]
  exact h.map _

/-! ### Stops -/

theorem Schema.Reordered.map_problem_scaleFindings {s t : Schema} (h : s.Reordered t)
    (place place' : Place) :
    (scaleFindings place s).map Finding.problem = (scaleFindings place' t).map Finding.problem := by
  have any : s.keywords.anyOf.isEmpty = t.keywords.anyOf.isEmpty := h.isEmpty_branches_eq .anyOf
  have one : s.keywords.oneOf.isEmpty = t.keywords.oneOf.isEmpty := h.isEmpty_branches_eq .oneOf
  have all : s.keywords.allOf.isEmpty = t.keywords.allOf.isEmpty := h.isEmpty_branches_eq .allOf
  simp only [scaleFindings, compositionFindings, Schema.hasMixedType, List.map_append,
    map_problem_findIf, any, one, all, h.isOpen_eq, h.hasType_eq, h.isMeaningful_eq, h.typeList_eq]

theorem map_problem_nameFindings (convention : NamingConvention) (place : Place)
    (names : List String) :
    (nameFindings convention place names).map Finding.problem =
      names.flatMap fun name =>
        if !convention.accepts name then [.misnamed name convention] else [] := by
  rw [nameFindings, List.map_flatMap]
  exact List.flatMap_congr fun name _ => map_problem_findIf _ _ _

/-- The stops of reordered sites have the same findings, but for places and order. -/
theorem Site.Reordered.perm_stops {x y : Site} (h : x.Reordered y) (config : Config) :
    (x.stops.flatMap fun v => (v.findings config).map Finding.content).Perm
      (y.stops.flatMap fun v => (v.findings config).map Finding.content) := by
  have schema : ((Visit.findings config (.schema x.place x.schema)).map Finding.content).Perm
      ((Visit.findings config (.schema y.place y.schema)).map Finding.content) := by
    refine Visit.perm_content h.1 ?_
    rw [Visit.findings, Visit.findings]
    split
    · rw [h.2.2.map_problem_scaleFindings x.place y.place]
    · exact .refl _
  have names : ((Visit.findings config (.names x.place x.schema.properties.names)).map
        Finding.content).Perm
      ((Visit.findings config (.names y.place y.schema.properties.names)).map
        Finding.content) := by
    refine Visit.perm_content h.1 ?_
    rw [Visit.findings, Visit.findings, map_problem_nameFindings, map_problem_nameFindings,
      h.2.2.names_eq]
  have union : ∀ keyword,
      ((x.unionStops keyword).flatMap fun v => (v.findings config).map Finding.content).Perm
        ((y.unionStops keyword).flatMap fun v => (v.findings config).map Finding.content) := by
    intro keyword
    rw [unionStops, unionStops, h.2.2.isEmpty_branches_eq keyword]
    split
    · exact .refl _
    · rw [List.flatMap_singleton, List.flatMap_singleton]
      exact Visit.perm_content h.1 ((h.union keyword).perm_findings config)
  simp only [stops, List.flatMap_append, List.flatMap_cons, List.flatMap_nil, List.append_nil]
  exact (schema.append names).append ((union .anyOf).append (union .oneOf))

/-! ### Documents -/

namespace Document

variable {d e : Document}

theorem Reordered.sites (h : d.Reordered e) : List.Forall₂ Site.Reordered d.sites e.sites :=
  sites_rel h.root h.defs h.definitions fun _ _ _ hst => ⟨rfl, rfl, hst⟩

/-- **Branch order only moves findings**: documents that are the same up to the order of branches
have the same issues the same number of times, but for their paths. -/
theorem audit_reordered (config : Config) (h : d.Reordered e) :
    ((d.audit config).issues.map Issue.unplaced).Perm
      ((e.audit config).issues.map Issue.unplaced) := by
  have content : ((d.findings config).map Finding.content).Perm
      ((e.findings config).map Finding.content) := by
    rw [findings, findings, List.map_flatMap, List.map_flatMap]
    exact flatMap_visits_perm (fun hxy => hxy.2.2.isReference_eq)
      (fun hxy _ => hxy.perm_stops config) (fun hxy _ => hxy.entered) h.sites
  have unplaced : ∀ d : Document, (d.audit config).issues.map Issue.unplaced =
      ((d.findings config).map Finding.content).map unplacedIssue := by
    intro d
    rw [audit, List.map_map, List.map_map]
    exact List.map_congr_left fun f _ => f.unplaced_issue
  rw [unplaced, unplaced]
  exact content.map unplacedIssue

end Document

/-! ### An example -/

namespace Schema

/-- A choice between two schemas. -/
def either (s t : Schema) : Schema := .object { oneOf := [some s, some t] }

/-- A schema with a tag. -/
def tagged (tag : String) : Schema :=
  .object { properties := [("kind", some (.object { const := some (.string tag) }))] }

theorem Sorted.either {s t : Schema} (hs : s.Sorted) (ht : t.Sorted) : (either s t).Sorted := by
  refine .object List.Pairwise.nil fun part hpart => ?_
  obtain rfl | rfl : part = s ∨ part = t := by
    simpa [Keywords.mem_subschemas_iff] using hpart
  · exact hs
  · exact ht

theorem sorted_tagged (tag : String) : (tagged tag).Sorted := by
  refine .object (List.pairwise_singleton _ _) fun part hpart => ?_
  obtain rfl : part = .object { const := some (.string tag) } := by
    simpa [Keywords.mem_subschemas_iff] using hpart
  exact .object List.Pairwise.nil fun part hpart => by
    simp [Keywords.mem_subschemas_iff] at hpart

/-- The two sides of a choice change places. -/
theorem Reordered.either {s s' t t' : Schema} (hs : s.Reordered s') (ht : t.Reordered t') :
    (either s t).Reordered (either t' s') :=
  .object (.refl _) (List.Perm.swap _ _ _) (.refl _)
    (.intro _ _ _ _ _ .nil .none .none .nil (.cons (.some ht) (.cons (.some hs) .nil)) .nil)

end Schema

namespace Document

/-- A choice between a tag and a choice that repeats it. -/
def tagThenChoice : Document where
  root := .either (.tagged "x") (.either (.tagged "x") (.tagged "x"))
  sorted_root := (Schema.sorted_tagged _).either
    ((Schema.sorted_tagged _).either (Schema.sorted_tagged _))

/-- The same choice the other way round. -/
def choiceThenTag : Document where
  root := .either (.either (.tagged "x") (.tagged "x")) (.tagged "x")
  sorted_root :=
    ((Schema.sorted_tagged _).either (Schema.sorted_tagged _)).either (Schema.sorted_tagged _)

theorem reordered_tagThenChoice : tagThenChoice.Reordered choiceThenTag where
  root := (Schema.reordered_refl _).either
    ((Schema.reordered_refl _).either (Schema.reordered_refl _))
  defs := .nil
  definitions := .nil

/-- The issues of the two choices are the same but for their paths, which differ. -/
theorem audit_reordered_tagThenChoice :
    tagThenChoice.Reordered choiceThenTag ∧
      ((tagThenChoice.audit {}).issues.map Issue.unplaced).Perm
        ((choiceThenTag.audit {}).issues.map Issue.unplaced) ∧
      tagThenChoice.audit {} ≠ choiceThenTag.audit {} :=
  ⟨reordered_tagThenChoice, audit_reordered {} reordered_tagThenChoice, by decide⟩

end Document

end SchemaAudit
