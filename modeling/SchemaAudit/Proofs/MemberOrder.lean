/-
**The order of members.**

Decoding follows the order of the document within `properties` and the definitions, and it stops at
the first offending value.  Yet whether it succeeds, and what is then reported, depends neither on
the order of members, at any depth, nor on the members of a schema that it does not recognise: only
the error of a failed decoding does.

Main definitions:

* `Value.Shuffled` — two values are the same up to the order of members, at every depth;
* `SameSchema`, `SameDocument` — **the same schema or document**, up to the order of members and up
  to the members of schemas that are not recognised;
* `SameOutcome` — two computations both succeed, with related results, or both fail.

Main results:

* `SameDocument.of_shuffled` — values that are the same up to the order of members are the same
  documents;
* `NameMap.forall₂_ofList` — a map does not depend on the order in which its entries are added;
* `Schema.decodesAlike` — **the same schemas are decoded alike**;
* `auditValue_eq_ok_iff` — **the same documents have the same report, or none**.
-/

import SchemaAudit.Proofs.DistinctKeys
import SchemaAudit.Proofs.Footprint
import SchemaAudit.Proofs.Grammar
import SchemaAudit.Proofs.Roots

set_option relaxedAutoImplicit false
set_option autoImplicit false

namespace SchemaAudit

open Json (Value Members)

/-! ### The same schemas -/

/-- Two values are the same up to the order of members, at every depth. -/
inductive Json.Value.Shuffled : Value → Value → Prop
  | null : Shuffled .null .null
  | bool (value : Bool) : Shuffled (.bool value) (.bool value)
  | number (value : Json.Number) : Shuffled (.number value) (.number value)
  | string (text : String) : Shuffled (.string text) (.string text)
  | array {items items' : List Value} (related : List.Forall₂ Shuffled items items') :
      Shuffled (.array items) (.array items')
  | object {members mid members' : Members} (perm : members.Perm mid)
      (related : List.Forall₂ (NameMap.EntryRel Shuffled) mid members') :
      Shuffled (.object members) (.object members')

open Json.Value (Shuffled)

/-- Two arrays with related items, or two values that are no arrays and the same up to the order of
members. -/
inductive ArrayRel (R : Value → Value → Prop) : Value → Value → Prop
  | array {items items' : List Value} (related : List.Forall₂ R items items') :
      ArrayRel R (.array items) (.array items')
  | other {v w : Value} (same : Shuffled v w) (kind : v.kind ≠ .array) : ArrayRel R v w

/-- Two objects with related members, in any order, or two values that are no objects and the same
up to the order of members. -/
inductive ObjectRel (R : Value → Value → Prop) : Value → Value → Prop
  | object {members mid members' : Members} (perm : members.Perm mid)
      (related : List.Forall₂ (NameMap.EntryRel R) mid members') :
      ObjectRel R (.object members) (.object members')
  | other {v w : Value} (same : Shuffled v w) (kind : v.kind ≠ .object) : ObjectRel R v w

/-- Two related values, or two arrays, whose items no one looks at. -/
inductive ItemsRel (R : Value → Value → Prop) : Value → Value → Prop
  | schema {v w : Value} (related : R v w) : ItemsRel R v w
  | tuple (items items' : List Value) : ItemsRel R (.array items) (.array items')

/-- **The same schema**: up to the order of members, at every depth, and up to the members of
schemas that are not recognised. -/
inductive SameSchema : Value → Value → Prop
  | object {members members' : Members}
      (plain : ∀ key ∈ ["type", "required", "const", "enum", "$ref"],
        Option.Rel Shuffled (List.lookup key members) (List.lookup key members'))
      (properties : Option.Rel (ObjectRel SameSchema) (List.lookup "properties" members)
        (List.lookup "properties" members'))
      (items : Option.Rel (ItemsRel SameSchema) (List.lookup "items" members)
        (List.lookup "items" members'))
      (additional : Option.Rel SameSchema (List.lookup "additionalProperties" members)
        (List.lookup "additionalProperties" members'))
      (branches : ∀ key ∈ ["anyOf", "oneOf", "allOf"],
        Option.Rel (ArrayRel SameSchema) (List.lookup key members) (List.lookup key members')) :
      SameSchema (.object members) (.object members')
  | other {v w : Value} (same : Shuffled v w) (kind : v.kind ≠ .object) : SameSchema v w

/-- **The same document**: the same schema, which also has the same definitions if it is an
object. -/
structure SameDocument (v w : Value) : Prop where
  root : SameSchema v w
  definitions : ∀ members members', v = .object members → w = .object members' →
    ∀ group : DefinitionGroup, Option.Rel (ObjectRel SameSchema)
      (List.lookup group.keyword members) (List.lookup group.keyword members')

namespace Json.Value.Shuffled

theorem kind_eq {v w : Value} (h : Shuffled v w) : v.kind = w.kind := by
  cases h <;> rfl

theorem string?_eq {v w : Value} (h : Shuffled v w) : v.string? = w.string? := by
  cases h <;> rfl

end Json.Value.Shuffled

theorem SameSchema.kind_eq {v w : Value} (h : SameSchema v w) : v.kind = w.kind := by
  cases h with
  | object => rfl
  | other same => exact same.kind_eq

/-! ### Values up to the order of members -/

theorem Json.Value.shuffled_refl (v : Value) : Shuffled v v := by
  induction v using Value.inductionOn with
  | null => exact .null
  | bool value => exact .bool value
  | number value => exact .number value
  | string text => exact .string text
  | array items ih => exact .array (List.forall₂_same.2 ih)
  | object members ih =>
      exact .object (.refl _) (List.forall₂_same.2 fun m hm => .intro m.1 (ih m hm))

/-- In all places for subschemas a value is the same as what it becomes when members are
reordered. -/
structure KeepsMeaning (v : Value) : Prop where
  schema : ∀ w, Shuffled v w → SameSchema v w
  map : ∀ w, Shuffled v w → ObjectRel SameSchema v w
  branches : ∀ w, Shuffled v w → ArrayRel SameSchema v w

theorem Json.Value.KeysDistinct.keepsMeaning {v : Value} (h : v.KeysDistinct) :
    KeepsMeaning v := by
  induction h with
  | @array items _ ih =>
      have kind : (Value.array items).kind ≠ .object := by simp [Value.kind]
      refine ⟨fun w h => .other h kind, fun w h => .other h kind, fun w h => ?_⟩
      cases h with
      | array related =>
          refine .array (((List.forall₂_and_left _ _).2 ⟨ih, related⟩).imp ?_)
          exact fun v w hvw => hvw.1.schema w hvw.2
  | @object members keys _ ih =>
      refine ⟨fun w h => ?_, fun w h => ?_, fun w h => .other h (by simp [Value.kind])⟩
      · cases h with
        | object perm related =>
            have found : ∀ {Q : Value → Value → Prop} {key : String},
                (∀ v, KeepsMeaning v → ∀ w, Shuffled v w → Q v w) →
                  Option.Rel Q (List.lookup key members) (List.lookup key _) := fun hQ =>
              Record.lookup_rel keys perm related fun v w hv => hQ v (ih _ hv) w
            exact .object (fun _ _ => found fun _ _ _ => id) (found fun _ h => h.map)
              (found fun _ h w hvw => .schema (h.schema w hvw)) (found fun _ h => h.schema)
              (fun _ _ => found fun _ h => h.branches)
      · cases h with
        | @object _ mid _ perm related =>
            have parts : ∀ m ∈ mid, KeepsMeaning m.2 := fun m hm => ih m (perm.mem_iff.2 hm)
            refine .object perm (((List.forall₂_and_left _ _).2 ⟨parts, related⟩).imp ?_)
            rintro _ _ ⟨hv, ⟨name, hvw⟩⟩
            exact .intro name (hv.schema _ hvw)
  | _ =>
      refine ⟨fun w h => .other h ?_, fun w h => .other h ?_, fun w h => .other h ?_⟩ <;>
        simp [Value.kind]

/-- **Values that are the same up to the order of members are the same documents.** -/
theorem SameDocument.of_shuffled {v w : Value} (keys : v.KeysDistinct) (h : Shuffled v w) :
    SameDocument v w where
  root := keys.keepsMeaning.schema w h
  definitions := by
    rintro members members' rfl rfl group
    obtain ⟨names, values⟩ := Value.keysDistinct_object_iff.1 keys
    cases h with
    | object perm related =>
        exact Record.lookup_rel names perm related fun v w hv hvw =>
          (values _ hv).keepsMeaning.map w hvw

/-! ### Computations with the same outcome -/

/-- Two computations both succeed, with related results, or both fail. -/
inductive SameOutcome {α β : Type} (R : α → β → Prop) : Except Fault α → Except Fault β → Prop
  | ok {a : α} {b : β} (related : R a b) : SameOutcome R (.ok a) (.ok b)
  | error (fault fault' : Fault) : SameOutcome R (.error fault) (.error fault')

namespace SameOutcome

variable {α β γ δ : Type} {R : α → β → Prop} {S : γ → δ → Prop} {x : Except Fault α}
  {y : Except Fault β}

theorem refl (x : Except Fault α) : SameOutcome Eq x x := by
  cases x with
  | ok a => exact .ok rfl
  | error fault => exact .error fault fault

theorem trans {Q : α → γ → Prop} {T : β → γ → Prop} {z : Except Fault γ} (h : SameOutcome R x y)
    (h' : SameOutcome T y z) (hQ : ∀ a b c, R a b → T b c → Q a c) : SameOutcome Q x z := by
  cases h with
  | ok related =>
      cases h' with
      | ok related' => exact .ok (hQ _ _ _ related related')
  | error fault fault' =>
      cases h' with
      | error _ fault'' => exact .error fault fault''

theorem bind {f : α → Except Fault γ} {g : β → Except Fault δ} (h : SameOutcome R x y)
    (hfg : ∀ a b, R a b → SameOutcome S (f a) (g b)) : SameOutcome S (x >>= f) (y >>= g) := by
  cases h with
  | ok related => exact hfg _ _ related
  | error fault fault' => exact .error fault fault'

theorem map {f : α → γ} {g : β → δ} (h : SameOutcome R x y) (hfg : ∀ a b, R a b → S (f a) (g b)) :
    SameOutcome S (f <$> x) (g <$> y) := by
  cases h with
  | ok related => exact .ok (hfg _ _ related)
  | error fault fault' => exact .error fault fault'

theorem exists_ok_iff (h : SameOutcome R x y) : (∃ a, x = .ok a) ↔ ∃ b, y = .ok b := by
  cases h <;> simp

theorem related_of_eq_ok (h : SameOutcome R x y) {a : α} {b : β} (hx : x = .ok a)
    (hy : y = .ok b) : R a b := by
  cases h with
  | ok related =>
      cases hx
      cases hy
      exact related
  | error fault fault' => cases hx

/-- Computations have the same outcome if one succeeds when the other does, and their results are
related. -/
theorem of_exists_ok_iff (h : (∃ a, x = .ok a) ↔ ∃ b, y = .ok b)
    (related : ∀ a b, x = .ok a → y = .ok b → R a b) : SameOutcome R x y := by
  cases x with
  | ok a =>
      obtain ⟨b, rfl⟩ := h.1 ⟨a, rfl⟩
      exact .ok (related a b rfl rfl)
  | error fault =>
      cases y with
      | ok b => exact absurd (h.2 ⟨b, rfl⟩) (by simp)
      | error fault' => exact .error fault fault'

end SameOutcome

/-! ### Maps do not depend on the order of their entries -/

namespace NameMap

variable {α β : Type} {m : NameMap α}

theorem perm_insert {name : String} {value : α} (h : name ∉ m.names) :
    (m.insert name value).Perm ((name, value) :: m) := by
  induction m with
  | nil => exact .refl _
  | cons head rest ih =>
      obtain ⟨k, v⟩ := head
      obtain ⟨hk, hrest⟩ := not_or.1 (mt List.mem_cons.2 h)
      rw [insert, if_neg hk]
      split
      · exact .refl _
      · exact ((ih hrest).cons (k, v)).trans (.swap (name, value) (k, v) rest)

/-- With distinct names, the map of some entries has just these entries. -/
theorem perm_ofList {entries : List (String × α)} (h : (entries.map Prod.fst).Nodup) :
    (ofList entries).Perm entries := by
  have build : ∀ (entries : List (String × α)) (m : NameMap α),
      ((m ++ entries).map Prod.fst).Nodup →
        (entries.foldl (fun m entry => m.insert entry.1 entry.2) m).Perm (m ++ entries) := by
    intro entries
    induction entries with
    | nil => exact fun m _ => by rw [List.append_nil]; rfl
    | cons entry rest ih =>
        intro m h
        have first : (m.insert entry.1 entry.2).Perm (entry :: m) := by
          refine perm_insert fun hmem => ?_
          rw [List.map_append, List.nodup_append] at h
          exact h.2.2 _ hmem _ List.mem_cons_self rfl
        have perm : (m.insert entry.1 entry.2 ++ rest).Perm (m ++ entry :: rest) :=
          (first.append_right rest).trans List.perm_middle.symm
        exact (ih _ ((perm.map Prod.fst).nodup_iff.2 h)).trans perm
  exact build entries [] h

theorem sorted_iff_pairwise_names : m.Sorted ↔ m.names.Pairwise (· < ·) :=
  List.pairwise_map.symm

/-- **A map does not depend on the order in which its entries are added.** -/
theorem forall₂_ofList {R : α → β → Prop} {entries : List (String × α)}
    {entries' : List (String × β)} (names : (entries.map Prod.fst).Nodup)
    (h : Reordering (EntryRel R) entries entries') :
    List.Forall₂ (EntryRel R) (ofList entries) (ofList entries') := by
  obtain ⟨mid, perm, related⟩ := h
  have names' : (NameMap.names entries').Nodup := by
    rw [← names_eq_of_rel related]
    exact (perm.map Prod.fst).nodup_iff.1 names
  -- the second map, with the related values of the first one
  obtain ⟨m, hm, hperm⟩ : ∃ m, List.Forall₂ (EntryRel R) m (ofList entries') ∧ m.Perm mid := by
    have hflip := List.perm_comp_forall₂ (perm_ofList names') related.flip
    obtain ⟨m, hm, hperm⟩ := hflip
    exact ⟨m, hm.flip, hperm⟩
  have sorted : NameMap.Sorted m := by
    rw [sorted_iff_pairwise_names, names_eq_of_rel hm, ← sorted_iff_pairwise_names]
    exact sorted_ofList entries'
  have : ofList entries = m := by
    refine (sorted_ofList entries).eq_of_mem_iff sorted fun entry => ?_
    exact ((perm_ofList names).trans (perm.trans hperm.symm)).mem_iff
  rwa [this]

end NameMap

/-! ### Keywords without subschemas -/

theorem eq_nil_iff_of_forall₂ {α β : Type} {R : α → β → Prop} {l : List α} {l' : List β}
    (h : List.Forall₂ R l l') : l = [] ↔ l' = [] := by
  rw [List.eq_nil_iff_length_eq_zero, List.eq_nil_iff_length_eq_zero, h.length_eq]

theorem map_string?_eq_of_rel {found found' : Option Value} (h : Option.Rel Shuffled found found') :
    found.map Value.string? = found'.map Value.string? := by
  cases h with
  | none => rfl
  | some same => exact congrArg some same.string?_eq

namespace Schema

theorem decodeStrings_sameOutcome {items items' : List Value}
    (h : List.Forall₂ Shuffled items items') (pointer : Pointer) (index : Nat) :
    SameOutcome Eq (decodeStrings pointer index items) (decodeStrings pointer index items') := by
  induction h generalizing index with
  | nil => exact .ok rfl
  | cons hitem _ ih =>
      cases hitem with
      | string text =>
          refine (ih (index + 1)).bind ?_
          rintro texts _ rfl
          exact .ok rfl
      | _ => exact .error _ _

theorem decodeStringList_sameOutcome {v w : Value} (h : Shuffled v w) (pointer : Pointer) :
    SameOutcome Eq (decodeStringList pointer v) (decodeStringList pointer w) := by
  cases h with
  | array related => exact decodeStrings_sameOutcome related pointer 0
  | _ => exact .error _ _

theorem decodeType_sameOutcome {v w : Value} (h : Shuffled v w) (pointer : Pointer) :
    SameOutcome Eq (decodeType pointer v) (decodeType pointer w) := by
  cases h with
  | string name => exact .ok rfl
  | array related =>
      refine (decodeStrings_sameOutcome related pointer 0).bind ?_
      rintro names _ rfl
      exact .ok rfl
  | _ => exact .error _ _

theorem decodeEnum_sameOutcome {v w : Value} (h : Shuffled v w) (pointer : Pointer) :
    SameOutcome (fun values values' => values = [] ↔ values' = []) (decodeEnum pointer v)
      (decodeEnum pointer w) := by
  cases h with
  | array related => exact .ok (eq_nil_iff_of_forall₂ related)
  | _ => exact .error _ _

theorem decodeRef_sameOutcome {v w : Value} (h : Shuffled v w) (pointer : Pointer) :
    SameOutcome Eq (decodeRef pointer v) (decodeRef pointer w) := by
  cases h with
  | string target => exact .ok rfl
  | _ => exact .error _ _

/-- Related members are decoded alike if values like theirs are. -/
theorem member_sameOutcome {α : Type} {R : α → α → Prop} {Q : Value → Value → Prop} {key : String}
    {absent : α} {decode : Pointer → Value → Except Fault α} {members members' : Members}
    (h : Option.Rel Q (List.lookup key members) (List.lookup key members')) (pointer : Pointer)
    (habsent : R absent absent)
    (hdecode : ∀ v w, (key, v) ∈ members → Q v w →
      SameOutcome R (decode (pointer ++ [key]) v) (decode (pointer ++ [key]) w)) :
    SameOutcome R (member key absent decode pointer members)
      (member key absent decode pointer members') := by
  rw [member, member]
  cases hlookup : List.lookup key members with
  | none =>
      rw [hlookup] at h
      generalize List.lookup key members' = found at h ⊢
      cases h
      exact .ok habsent
  | some v =>
      rw [hlookup] at h
      generalize List.lookup key members' = found at h ⊢
      cases h with
      | some hvw => exact hdecode _ _ (Record.mem_of_lookup_eq_some hlookup) hvw

/-! ### Subschemas -/

/-- Two slots whose schemas differ only where no rule reads. -/
def SameSlot (slot slot' : Slot) : Prop :=
  Option.Rel Schema.SameFootprint slot slot' ∧
    (slot = some (.boolean true) ↔ slot' = some (.boolean true))

theorem sameSlot_none : SameSlot none none := ⟨.none, .rfl⟩

/-- A value is decoded like the same value, in all places for subschemas. -/
structure DecodesAlike (v : Value) : Prop where
  slot : ∀ pointer w, SameSchema v w →
    SameOutcome SameSlot (decodeSlot pointer v) (decodeSlot pointer w)
  map : ∀ pointer w, ObjectRel SameSchema v w →
    SameOutcome (List.Forall₂ (NameMap.EntryRel (Option.Rel Schema.SameFootprint)))
      (decodeMap pointer v) (decodeMap pointer w)
  branches : ∀ pointer w, ArrayRel SameSchema v w →
    SameOutcome (List.Forall₂ (Option.Rel Schema.SameFootprint)) (decodeBranchList pointer v)
      (decodeBranchList pointer w)

theorem decodeSlot_sameOutcome_of_shuffled {v w : Value} (h : Shuffled v w)
    (kind : v.kind ≠ .object) (pointer : Pointer) :
    SameOutcome SameSlot (decodeSlot pointer v) (decodeSlot pointer w) := by
  cases h with
  | null => exact .ok sameSlot_none
  | bool value => exact .ok ⟨.some (.boolean value value), .rfl⟩
  | object => exact absurd rfl kind
  | _ => exact .error _ _

theorem decodeMap_sameOutcome_of_shuffled {v w : Value} {R : NameMap Slot → NameMap Slot → Prop}
    (h : Shuffled v w) (kind : v.kind ≠ .object) (pointer : Pointer) :
    SameOutcome R (decodeMap pointer v) (decodeMap pointer w) := by
  cases h with
  | object => exact absurd rfl kind
  | _ => exact .error _ _

theorem decodeBranchList_sameOutcome_of_shuffled {v w : Value} {R : List Slot → List Slot → Prop}
    (h : Shuffled v w) (kind : v.kind ≠ .array) (pointer : Pointer) :
    SameOutcome R (decodeBranchList pointer v) (decodeBranchList pointer w) := by
  cases h with
  | array => exact absurd rfl kind
  | _ => exact .error _ _

theorem decodeBranches_sameOutcome {items items' : List Value}
    (h : List.Forall₂ SameSchema items items') (ih : ∀ item ∈ items, DecodesAlike item)
    (pointer : Pointer) (index : Nat) :
    SameOutcome (List.Forall₂ (Option.Rel Schema.SameFootprint))
      (decodeBranches pointer index items) (decodeBranches pointer index items') := by
  induction h generalizing index with
  | nil => exact .ok .nil
  | cons hitem _ later =>
      obtain ⟨hhead, hrest⟩ := List.forall_mem_cons.1 ih
      refine (hhead.slot _ _ hitem).bind fun slot slot' hslot => ?_
      exact (later hrest (index + 1)).bind fun _ _ hslots => .ok (.cons hslot.1 hslots)

theorem decodeEntries_sameOutcome {members members' : Members}
    (h : List.Forall₂ (NameMap.EntryRel SameSchema) members members')
    (ih : ∀ m ∈ members, DecodesAlike m.2) (pointer : Pointer) :
    SameOutcome (List.Forall₂ (NameMap.EntryRel (Option.Rel Schema.SameFootprint)))
      (decodeEntries pointer members) (decodeEntries pointer members') := by
  induction h with
  | nil => exact .ok .nil
  | cons hm _ later =>
      obtain ⟨hhead, hrest⟩ := List.forall_mem_cons.1 ih
      cases hm with
      | intro name related =>
          refine (hhead.slot _ _ related).bind fun slot slot' hslot => ?_
          exact (later hrest).bind fun _ _ hslots => .ok (.cons (.intro name hslot.1) hslots)

/-- The order of members decides in which order slots come, and which error is reported. -/
theorem decodeEntries_sameOutcome_of_perm {members members' : Members} (h : members.Perm members')
    (pointer : Pointer) :
    SameOutcome List.Perm (decodeEntries pointer members) (decodeEntries pointer members') := by
  induction h with
  | nil => exact .ok (.refl _)
  | cons m _ ih =>
      rw [decodeEntries, decodeEntries]
      refine (SameOutcome.refl _).bind ?_
      rintro slot _ rfl
      exact ih.bind fun _ _ hentries => .ok (hentries.cons _)
  | swap m m' rest =>
      simp only [decodeEntries]
      cases decodeSlot (pointer ++ [m.1]) m.2 with
      | error fault => cases decodeSlot (pointer ++ [m'.1]) m'.2 <;> exact .error _ _
      | ok slot =>
          cases decodeSlot (pointer ++ [m'.1]) m'.2 with
          | error fault' => exact .error _ _
          | ok slot' =>
              cases decodeEntries pointer rest with
              | error fault => exact .error _ _
              | ok entries => exact .ok (.swap _ _ _)
  | trans _ _ first second => exact first.trans second fun _ _ _ => List.Perm.trans

theorem names_of_decodeEntries {pointer : Pointer} {members : Members}
    {entries : List (String × Slot)} (h : decodeEntries pointer members = .ok entries) :
    entries.map Prod.fst = members.map Prod.fst := by
  induction members generalizing entries with
  | nil =>
      cases h
      rfl
  | cons m rest ih =>
      obtain ⟨slot, -, h⟩ := bind_eq_ok_iff.1 h
      obtain ⟨later, hlater, h⟩ := bind_eq_ok_iff.1 h
      cases h
      exact congrArg (List.cons m.1) (ih hlater)

/-- Maps are decoded alike whatever the order of their entries. -/
theorem decodeMap_sameOutcome {members mid members' : Members}
    (names : (members.map Prod.fst).Nodup) (perm : members.Perm mid)
    (related : List.Forall₂ (NameMap.EntryRel SameSchema) mid members')
    (ih : ∀ m ∈ members, DecodesAlike m.2) (pointer : Pointer) :
    SameOutcome (List.Forall₂ (NameMap.EntryRel (Option.Rel Schema.SameFootprint)))
      (decodeMap pointer (.object members)) (decodeMap pointer (.object members')) := by
  -- first the order of the members changes, then each member by itself
  have entries : SameOutcome (Reordering (NameMap.EntryRel (Option.Rel Schema.SameFootprint)))
      (decodeEntries pointer members) (decodeEntries pointer members') :=
    (decodeEntries_sameOutcome_of_perm perm pointer).trans
      (decodeEntries_sameOutcome related (fun m hm => ih m (perm.mem_iff.2 hm)) pointer)
      fun _ _ _ hperm hrelated => ⟨_, hperm, hrelated⟩
  rw [decodeMap, decodeMap]
  generalize hfirst : decodeEntries pointer members = first at entries ⊢
  generalize decodeEntries pointer members' = second at entries ⊢
  cases entries with
  | ok hentries =>
      refine .ok (NameMap.forall₂_ofList ?_ hentries)
      rwa [names_of_decodeEntries hfirst]
  | error fault fault' => exact .error fault fault'

theorem decodeItems_sameOutcome {v w : Value} (ih : DecodesAlike v) (h : ItemsRel SameSchema v w)
    (pointer : Pointer) :
    SameOutcome SameSlot (decodeItems pointer v) (decodeItems pointer w) := by
  cases h with
  | tuple => exact .ok sameSlot_none
  | schema same =>
      rw [decodeItems, decodeItems, ← same.kind_eq]
      split
      · exact .ok sameSlot_none
      · exact ih.slot _ _ same

/-- The same objects are decoded alike if their members are. -/
theorem decodeSlot_sameOutcome_object {members : Members} {w : Value}
    (h : SameSchema (.object members) w) (ih : ∀ m ∈ members, DecodesAlike m.2)
    (pointer : Pointer) :
    SameOutcome SameSlot (decodeSlot pointer (.object members)) (decodeSlot pointer w) := by
  cases h with
  | other _ kind => exact absurd rfl kind
  | @object _ members' plain properties items additional branches =>
      have branches_alike : ∀ key ∈ ["anyOf", "oneOf", "allOf"],
          SameOutcome (List.Forall₂ (Option.Rel Schema.SameFootprint))
            (member key [] decodeBranchList pointer members)
            (member key [] decodeBranchList pointer members') := fun key hkey =>
        member_sameOutcome (branches key hkey) pointer .nil fun _ _ hv => (ih _ hv).branches _ _
      simp only [decodeSlot, itemsMember_eq, slotMember_eq, branchesMember_eq, entriesMember_eq]
      -- keyword after keyword, in decoding order
      refine (member_sameOutcome (R := Eq) (plain "type" (by simp)) pointer rfl ?_).bind ?_
      · exact fun v w _ hvw => (decodeType_sameOutcome hvw _).map fun _ _ => congrArg some
      rintro type _ rfl
      refine (member_sameOutcome properties pointer .nil fun _ _ hv => (ih _ hv).map _ _).bind ?_
      intro properties properties' hproperties
      refine (member_sameOutcome (R := Eq) (plain "required" (by simp)) pointer rfl
        fun _ _ _ hvw => decodeStringList_sameOutcome hvw _).bind ?_
      rintro required _ rfl
      refine (member_sameOutcome items pointer sameSlot_none
        fun _ _ hv hvw => decodeItems_sameOutcome (ih _ hv) hvw _).bind ?_
      intro items items' hitems
      refine (member_sameOutcome additional pointer sameSlot_none
        fun _ _ hv => (ih _ hv).slot _ _).bind ?_
      intro additional additional' hadditional
      refine (branches_alike "anyOf" (by simp)).bind fun anyOf anyOf' hanyOf => ?_
      refine (branches_alike "oneOf" (by simp)).bind fun oneOf oneOf' honeOf => ?_
      refine (branches_alike "allOf" (by simp)).bind fun allOf allOf' hallOf => ?_
      refine (member_sameOutcome (plain "enum" (by simp)) pointer .rfl
        fun _ _ _ hvw => decodeEnum_sameOutcome hvw _).bind ?_
      intro enum enum' henum
      refine (member_sameOutcome (R := Eq) (plain "$ref" (by simp)) pointer rfl
        fun _ _ _ hvw => decodeRef_sameOutcome hvw _).bind ?_
      rintro ref _ rfl
      exact .ok ⟨.some (.object rfl rfl hproperties hitems.1 hadditional.1 hadditional.2
        (fun _ => hanyOf) (fun _ => honeOf) (eq_nil_iff_of_forall₂ hallOf)
        (map_string?_eq_of_rel (plain "const" (by simp))) henum), by simp⟩

/-- A value is decoded like the same value if its parts are. -/
theorem decodesAlike_of_parts {v : Value}
    (hobject : ∀ members, v = .object members →
      (members.map Prod.fst).Nodup ∧ ∀ m ∈ members, DecodesAlike m.2)
    (harray : ∀ items, v = .array items → ∀ item ∈ items, DecodesAlike item) : DecodesAlike v where
  slot pointer w h := by
    have same := h
    cases h with
    | object => exact decodeSlot_sameOutcome_object same (hobject _ rfl).2 pointer
    | other same kind => exact decodeSlot_sameOutcome_of_shuffled same kind pointer
  map pointer w h := by
    cases h with
    | object perm related =>
        obtain ⟨names, parts⟩ := hobject _ rfl
        exact decodeMap_sameOutcome names perm related parts pointer
    | other same kind => exact decodeMap_sameOutcome_of_shuffled same kind pointer
  branches pointer w h := by
    cases h with
    | array related => exact decodeBranches_sameOutcome related (harray _ rfl) pointer 0
    | other same kind => exact decodeBranchList_sameOutcome_of_shuffled same kind pointer

/-- **The same schemas are decoded alike.** -/
theorem decodesAlike {v : Value} (h : v.KeysDistinct) : DecodesAlike v := by
  induction h with
  | array _ ih =>
      refine decodesAlike_of_parts (by simp) ?_
      rintro items ⟨⟩
      exact ih
  | object keys _ ih =>
      refine decodesAlike_of_parts ?_ (by simp)
      rintro members ⟨⟩
      exact ⟨keys, ih⟩
  | _ => exact decodesAlike_of_parts (by simp) (by simp)

theorem ofValue?_sameOutcome {v w : Value} (keys : v.KeysDistinct) (h : SameSchema v w) :
    SameOutcome SameFootprint (ofValue? v) (ofValue? w) := by
  refine ((decodesAlike keys).slot [] w h).bind ?_
  rintro _ _ ⟨hst | -, -⟩
  · exact .ok hst
  · exact .ok (.object rfl rfl .nil .none .none .rfl (fun _ => .nil) (fun _ => .nil) .rfl rfl .rfl)

end Schema

/-! ### Documents -/

theorem SameDocument.group_sameOutcome {v w : Value} (h : SameDocument v w)
    (keys : v.KeysDistinct) (group : DefinitionGroup) :
    SameOutcome (List.Forall₂ (NameMap.EntryRel (Option.Rel Schema.SameFootprint)))
      (group.ofValue? v) (group.ofValue? w) := by
  have kind := h.root.kind_eq
  cases v with
  | object members =>
      cases w with
      | object members' =>
          have values := (Value.keysDistinct_object_iff.1 keys).2
          rw [DefinitionGroup.ofValue?, DefinitionGroup.ofValue?, Schema.entriesMember_eq,
            Schema.entriesMember_eq]
          exact Schema.member_sameOutcome (h.definitions _ _ rfl rfl group) [] .nil
            fun _ _ hv => (Schema.decodesAlike (values _ hv)).map _ _
      | _ => cases kind
  | _ =>
      cases w with
      | object members' => cases kind
      | _ => exact .ok .nil

theorem SameDocument.sameOutcome {v w : Value} (h : SameDocument v w) (keys : v.KeysDistinct) :
    SameOutcome Document.SameFootprint (Document.ofValue? v) (Document.ofValue? w) := by
  have root := Schema.ofValue?_sameOutcome keys h.root
  have defs := h.group_sameOutcome keys .defs
  have definitions := h.group_sameOutcome keys .definitions
  refine .of_exists_ok_iff ?_ fun d e hd he => ?_
  · rw [Document.exists_ofValue?_eq_ok_iff, Document.exists_ofValue?_eq_ok_iff, root.exists_ok_iff,
      defs.exists_ok_iff, definitions.exists_ok_iff]
  · obtain ⟨hroot, hdefs, hdefinitions⟩ := Document.ofValue?_eq_ok_iff.1 hd
    obtain ⟨hroot', hdefs', hdefinitions'⟩ := Document.ofValue?_eq_ok_iff.1 he
    exact ⟨root.related_of_eq_ok hroot hroot', defs.related_of_eq_ok hdefs hdefs',
      definitions.related_of_eq_ok hdefinitions hdefinitions'⟩

theorem auditValue_eq (config : Config) (value : Value) :
    auditValue config value =
      match Document.ofValue? value with
      | .ok d => .ok (d.audit config)
      | .error fault => .error (.invalidSchema fault) := by
  rw [auditValue, decode_eq]
  cases Document.ofValue? value <;> rfl

/-- **The order of members and the members that are not recognised do not matter**: of two values
that are the same document otherwise, one is audited exactly when the other is, and then the reports
are the same. -/
theorem auditValue_eq_ok_iff (config : Config) {v w : Value} (keys : v.KeysDistinct)
    (h : SameDocument v w) (report : Report) :
    auditValue config v = .ok report ↔ auditValue config w = .ok report := by
  have outcome := h.sameOutcome keys
  rw [auditValue_eq, auditValue_eq]
  generalize Document.ofValue? v = first at outcome ⊢
  generalize Document.ofValue? w = second at outcome ⊢
  cases outcome with
  | ok related => simp only [Document.audit_eq_of_sameFootprint config related]
  | error fault fault' => simp

/-- A document with two properties, in one of two versions: the second one lists all members in
another order and says nothing that is not recognised. -/
def memberVersion : Bool → Value
  | false => .object [
      ("title", .string "note"),
      ("properties", .object [
        ("text", .object [("type", .string "string"), ("$defs", .null)]),
        ("extra", .object [("type", .string "object"), ("additionalProperties", .bool true)])]),
      ("type", .array [.string "object", .string "null"])]
  | true => .object [
      ("type", .array [.string "object", .string "null"]),
      ("properties", .object [
        ("extra", .object [("additionalProperties", .bool true), ("type", .string "object")]),
        ("text", .object [("type", .string "string")])])]

theorem keysDistinct_memberVersion : (memberVersion false).KeysDistinct := by
  simp [memberVersion]

theorem sameDocument_memberVersion : SameDocument (memberVersion false) (memberVersion true) where
  root := by
    refine .object ?_ (.some (.object (.swap _ _ _) ?_)) .none .none ?_
    · simp [List.lookup, Json.Value.shuffled_refl]
    · refine .cons (.intro _ ?_) (.cons (.intro _ ?_) .nil)
      · refine .object ?_ .none .none (.some (.other (.bool true) (by simp [Value.kind]))) ?_
        · simp [List.lookup, Json.Value.shuffled_refl]
        · simp [List.lookup]
      · refine .object ?_ .none .none .none ?_
        · simp [List.lookup, Json.Value.shuffled_refl]
        · simp [List.lookup]
    · simp [List.lookup]
  definitions := by
    rintro _ _ ⟨⟩ ⟨⟩ group
    cases group <;> exact .none

/-- Both versions have the same two issues. -/
theorem auditValue_memberVersion :
    (memberVersion false).KeysDistinct ∧ SameDocument (memberVersion false) (memberVersion true) ∧
      ∃ report, report.issues.length = 2 ∧
        auditValue { profile := .scale } (memberVersion false) = .ok report ∧
        auditValue { profile := .scale } (memberVersion true) = .ok report := by
  have audited : ((auditValue { profile := .scale } (memberVersion false)).toOption.map
      fun r => r.issues.length) = some 2 := by decide
  obtain ⟨report, hreport, hlength⟩ := Option.map_eq_some_iff.1 audited
  have hreport : auditValue { profile := .scale } (memberVersion false) = .ok report := by
    cases h : auditValue { profile := .scale } (memberVersion false) with
    | ok r => simpa [h, Except.toOption] using hreport
    | error failure => simp [h, Except.toOption] at hreport
  exact ⟨keysDistinct_memberVersion, sameDocument_memberVersion, report, hlength, hreport,
    (auditValue_eq_ok_iff _ keysDistinct_memberVersion sameDocument_memberVersion report).1
      hreport⟩

end SchemaAudit
