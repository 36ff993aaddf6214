/-
**Which JSON values are schemas.**

A value is a schema by the shapes of a few of its members, at every depth.  The rules stand here on
their own, as an inductive predicate that has no order in which members are looked at, no positions
and no results.  This module proves that decoding accepts exactly the values that obey the rules.

Main definitions:

* `IsArrayOf`, `IsObjectOf` — arrays and objects whose items and members are of some kind;
* `Allows` — the member under a key, if there is one, is of some kind;
* `WellShaped` — **the rules for schemas**; `WellShapedDocument` — those for documents.

Main results:

* `Schema.decodes_iff` — a value in the place of a schema, of a map of schemas or of a list of
  branches is decoded exactly when it has the shape for this place;
* `Document.decode_ok_iff` — **decoding accepts exactly the documents that obey the rules**.
-/

import SchemaAudit.Source

set_option relaxedAutoImplicit false
set_option autoImplicit false

namespace SchemaAudit

open Json (Value Members)

/-! ### The rules -/

/-- An array whose items are of some kind. -/
inductive IsArrayOf (P : Value → Prop) : Value → Prop
  | intro {items : List Value} : (∀ item ∈ items, P item) → IsArrayOf P (.array items)

/-- An object whose members are of some kind, whatever their keys. -/
inductive IsObjectOf (P : Value → Prop) : Value → Prop
  | intro {members : Members} : (∀ m ∈ members, P m.2) → IsObjectOf P (.object members)

def IsString (value : Value) : Prop := value.kind = .string

def IsArray (value : Value) : Prop := value.kind = .array

/-- A name, or a list of names. -/
def IsTypeDecl (value : Value) : Prop := IsString value ∨ IsArrayOf IsString value

/-- The member under the key, if there is one, is of some kind. -/
def Allows (members : Members) (key : String) (P : Value → Prop) : Prop :=
  ∀ value, List.lookup key members = some value → P value

/-- **The rules for schemas.**  A schema is `null`, a literal or an object; what an object may hold
under the keywords does not depend on what else it holds, a `$ref` included. -/
inductive WellShaped : Value → Prop
  | null : WellShaped .null
  | bool (value : Bool) : WellShaped (.bool value)
  | object {members : Members}
      (type : Allows members "type" IsTypeDecl)
      (properties : Allows members "properties" (IsObjectOf WellShaped))
      (required : Allows members "required" (IsArrayOf IsString))
      (items : Allows members "items" fun value => ¬IsArray value → WellShaped value)
      (additional : Allows members "additionalProperties" WellShaped)
      (anyOf : Allows members "anyOf" (IsArrayOf WellShaped))
      (oneOf : Allows members "oneOf" (IsArrayOf WellShaped))
      (allOf : Allows members "allOf" (IsArrayOf WellShaped))
      (enum : Allows members "enum" IsArray)
      (ref : Allows members "$ref" IsString) :
      WellShaped (.object members)

/-- The keywords that the rules mention. -/
def schemaKeywords : List String :=
  ["type", "properties", "required", "items", "additionalProperties", "anyOf", "oneOf", "allOf",
    "enum", "$ref"]

/-- The members differ in nothing that the rules mention: at most under other keys, in the items of
an array under `items`, and in the values that are listed under `enum`. -/
def Alike (members members' : Members) : Prop :=
  ∀ key ∈ schemaKeywords, List.lookup key members = List.lookup key members' ∨
    key ∈ ["items", "enum"] ∧ ∃ items items', List.lookup key members = some (.array items) ∧
      List.lookup key members' = some (.array items')

/-- **The rules for documents**: a schema which, if it is an object, may hold definitions. -/
def WellShapedDocument (value : Value) : Prop :=
  WellShaped value ∧ ∀ members, value = .object members →
    Allows members "$defs" (IsObjectOf WellShaped) ∧
      Allows members "definitions" (IsObjectOf WellShaped)

/-! ### What the rules leave free -/

theorem Alike.symm {members members' : Members} (h : Alike members members') :
    Alike members' members := by
  intro key hkey
  rcases h key hkey with h | ⟨hfree, items, items', h, h'⟩
  · exact .inl h.symm
  · exact .inr ⟨hfree, items', items, h', h⟩

theorem Alike.allows {members members' : Members} (h : Alike members members') {key : String}
    {P : Value → Prop} (hallows : Allows members key P) (hkey : key ∈ schemaKeywords)
    (hfree : key ∈ ["items", "enum"] → ∀ items, P (.array items)) : Allows members' key P := by
  intro value hvalue
  rcases h key hkey with h | ⟨hmem, items, items', -, h'⟩
  · exact hallows value (h.trans hvalue)
  · rw [h'] at hvalue
    cases hvalue
    exact hfree hmem items'

theorem WellShaped.of_alike {members members' : Members} (h : Alike members members')
    (hshape : WellShaped (.object members)) : WellShaped (.object members') := by
  cases hshape with
  | object type properties required items additional anyOf oneOf allOf enum ref =>
      exact .object (h.allows type (by decide) (by simp))
        (h.allows properties (by decide) (by simp)) (h.allows required (by decide) (by simp))
        (h.allows items (by decide) fun _ items harray => absurd rfl harray)
        (h.allows additional (by decide) (by simp)) (h.allows anyOf (by decide) (by simp))
        (h.allows oneOf (by decide) (by simp)) (h.allows allOf (by decide) (by simp))
        (h.allows enum (by decide) fun _ items => rfl) (h.allows ref (by decide) (by simp))

/-! ### Keywords without subschemas -/

namespace Schema

/-- A sequence of two steps succeeds if the first one does and, after it, the second one. -/
theorem exists_bind_ok_iff {α β : Type} {x : Except Fault α} {f : α → Except Fault β} {P : Prop}
    (h : ∀ a, (∃ b, f a = .ok b) ↔ P) : (∃ b, x >>= f = .ok b) ↔ (∃ a, x = .ok a) ∧ P := by
  constructor
  · rintro ⟨b, hb⟩
    obtain ⟨a, ha, hb⟩ := bind_eq_ok_iff.1 hb
    exact ⟨⟨a, ha⟩, (h a).1 ⟨b, hb⟩⟩
  · rintro ⟨⟨a, ha⟩, hP⟩
    obtain ⟨b, hb⟩ := (h a).2 hP
    exact ⟨b, bind_eq_ok_iff.2 ⟨a, ha, hb⟩⟩

theorem exists_bind_pure_ok_iff {α β : Type} {x : Except Fault α} {f : α → β} :
    (∃ b, (x >>= fun a => pure (f a)) = .ok b) ↔ ∃ a, x = .ok a := by
  rw [exists_bind_ok_iff (P := True) fun a => by simp [pure, Except.pure], and_true]

theorem exists_map_ok_iff {α β : Type} {x : Except Fault α} {f : α → β} :
    (∃ b, f <$> x = .ok b) ↔ ∃ a, x = .ok a := by
  cases x <;> simp [Functor.map, Except.map]

theorem decodeStrings_ok_iff {pointer : Pointer} {index : Nat} {items : List Value} :
    (∃ texts, decodeStrings pointer index items = .ok texts) ↔ ∀ item ∈ items, IsString item := by
  induction items generalizing index with
  | nil => simp [decodeStrings]
  | cons item rest ih =>
      cases item with
      | string text =>
          rw [decodeStrings, exists_bind_pure_ok_iff, ih]
          simp [IsString, Value.kind]
      | _ => simp [decodeStrings, IsString, Value.kind]

theorem isArrayOf_array_iff {P : Value → Prop} {items : List Value} :
    IsArrayOf P (.array items) ↔ ∀ item ∈ items, P item :=
  ⟨fun ⟨h⟩ => h, .intro⟩

theorem isObjectOf_object_iff {P : Value → Prop} {members : Members} :
    IsObjectOf P (.object members) ↔ ∀ m ∈ members, P m.2 :=
  ⟨fun ⟨h⟩ => h, .intro⟩

/-- A value is no array of anything if it is no array. -/
theorem not_isArrayOf {P : Value → Prop} {value : Value} (h : ¬IsArray value) :
    ¬IsArrayOf P value := by
  rintro ⟨-⟩
  exact h rfl

theorem decodeStringList_ok_iff {pointer : Pointer} {value : Value} :
    (∃ texts, decodeStringList pointer value = .ok texts) ↔ IsArrayOf IsString value := by
  cases value with
  | array items => rw [decodeStringList, decodeStrings_ok_iff, isArrayOf_array_iff]
  | _ =>
      refine iff_of_false (by simp [decodeStringList]) (not_isArrayOf ?_)
      simp [IsArray, Value.kind]

theorem decodeType_ok_iff {pointer : Pointer} {value : Value} :
    (∃ type, decodeType pointer value = .ok type) ↔ IsTypeDecl value := by
  cases value with
  | string name => simp [decodeType, IsTypeDecl, IsString, Value.kind]
  | array items =>
      rw [decodeType, exists_bind_pure_ok_iff, decodeStrings_ok_iff, IsTypeDecl,
        isArrayOf_array_iff]
      simp [IsString, Value.kind]
  | _ =>
      refine iff_of_false (by simp [decodeType]) (not_or.2 ⟨?_, not_isArrayOf ?_⟩)
      · simp [IsString, Value.kind]
      · simp [IsArray, Value.kind]

theorem decodeEnum_ok_iff {pointer : Pointer} {value : Value} :
    (∃ items, decodeEnum pointer value = .ok items) ↔ IsArray value := by
  cases value <;> simp [decodeEnum, IsArray, Value.kind]

theorem decodeRef_ok_iff {pointer : Pointer} {value : Value} :
    (∃ target, decodeRef pointer value = .ok target) ↔ IsString value := by
  cases value <;> simp [decodeRef, IsString, Value.kind]

/-- What stands under a key is decoded when it is of the kind that is decoded there. -/
theorem member_ok_iff {α : Type} {key : String} {absent : α}
    {decode : Pointer → Value → Except Fault α} {pointer : Pointer} {members : Members}
    {P : Value → Prop}
    (h : ∀ m ∈ members, (∃ a, decode (pointer ++ [key]) m.2 = .ok a) ↔ P m.2) :
    (∃ a, member key absent decode pointer members = .ok a) ↔ Allows members key P := by
  rw [member, Allows]
  cases hlookup : List.lookup key members with
  | none => simp
  | some value =>
      simpa using h (key, value) (Record.mem_of_lookup_eq_some hlookup)

/-! ### Subschemas -/

/-- A value is decoded in the places for subschemas exactly when it has the shape for the place. -/
structure DecodesIff (value : Value) : Prop where
  slot : ∀ pointer, (∃ slot, decodeSlot pointer value = .ok slot) ↔ WellShaped value
  map : ∀ pointer, (∃ entries, decodeMap pointer value = .ok entries) ↔
    IsObjectOf WellShaped value
  branches : ∀ pointer, (∃ slots, decodeBranchList pointer value = .ok slots) ↔
    IsArrayOf WellShaped value

theorem decodeBranches_ok_iff {pointer : Pointer} {index : Nat} {items : List Value}
    (h : ∀ item ∈ items, DecodesIff item) :
    (∃ slots, decodeBranches pointer index items = .ok slots) ↔
      ∀ item ∈ items, WellShaped item := by
  induction items generalizing index with
  | nil => simp [decodeBranches]
  | cons item rest ih =>
      have later := @ih (index + 1) fun other hother => h other (List.mem_cons_of_mem _ hother)
      rw [decodeBranches, exists_bind_ok_iff fun slot => exists_bind_pure_ok_iff,
        (h item List.mem_cons_self).slot, later]
      simp

theorem decodeEntries_ok_iff {pointer : Pointer} {members : List (String × Value)}
    (h : ∀ m ∈ members, DecodesIff m.2) :
    (∃ entries, decodeEntries pointer members = .ok entries) ↔
      ∀ m ∈ members, WellShaped m.2 := by
  induction members with
  | nil => simp [decodeEntries]
  | cons m rest ih =>
      have later := ih fun other hother => h other (List.mem_cons_of_mem _ hother)
      rw [decodeEntries, exists_bind_ok_iff fun slot => exists_bind_pure_ok_iff,
        (h m List.mem_cons_self).slot, later]
      simp

/-- An object is decoded exactly when all that it holds under the keywords is. -/
theorem decodeSlot_object_ok_iff {pointer : Pointer} {members : Members}
    (h : ∀ m ∈ members, DecodesIff m.2) :
    (∃ slot, decodeSlot pointer (.object members) = .ok slot) ↔ WellShaped (.object members) := by
  have items : ∀ m ∈ members,
      (∃ slot, decodeItems (pointer ++ ["items"]) m.2 = .ok slot) ↔
        (¬IsArray m.2 → WellShaped m.2) := by
    intro m hm
    rw [decodeItems, IsArray]
    split
    · rename_i harray
      exact iff_of_true ⟨none, rfl⟩ (absurd harray)
    · rename_i harray
      rw [(h m hm).slot, forall_prop_of_true harray]
  simp only [decodeSlot, itemsMember_eq, slotMember_eq, branchesMember_eq, entriesMember_eq]
  rw [exists_bind_ok_iff fun type => exists_bind_ok_iff fun properties =>
    exists_bind_ok_iff fun required => exists_bind_ok_iff fun items =>
    exists_bind_ok_iff fun additional => exists_bind_ok_iff fun anyOf =>
    exists_bind_ok_iff fun oneOf => exists_bind_ok_iff fun allOf =>
    exists_bind_ok_iff fun enum => exists_bind_pure_ok_iff]
  rw [member_ok_iff (P := IsTypeDecl) fun m _ => exists_map_ok_iff.trans decodeType_ok_iff,
    member_ok_iff fun m hm => (h m hm).map _,
    member_ok_iff fun m _ => decodeStringList_ok_iff,
    member_ok_iff (P := fun value => ¬IsArray value → WellShaped value) items,
    member_ok_iff fun m hm => (h m hm).slot _,
    member_ok_iff fun m hm => (h m hm).branches _,
    member_ok_iff fun m hm => (h m hm).branches _,
    member_ok_iff fun m hm => (h m hm).branches _,
    member_ok_iff fun m _ => decodeEnum_ok_iff,
    member_ok_iff fun m _ => decodeRef_ok_iff]
  constructor
  · rintro ⟨type, properties, required, items, additional, anyOf, oneOf, allOf, enum, ref⟩
    exact .object type properties required items additional anyOf oneOf allOf enum ref
  · intro hshape
    cases hshape with
    | object type properties required items additional anyOf oneOf allOf enum ref =>
        exact ⟨type, properties, required, items, additional, anyOf, oneOf, allOf, enum, ref⟩

/-- Nothing but an object is read as a map. -/
theorem decodeMap_ok_iff_of_kind_ne {value : Value} (h : value.kind ≠ .object)
    (pointer : Pointer) :
    (∃ entries, decodeMap pointer value = .ok entries) ↔ IsObjectOf WellShaped value := by
  refine iff_of_false ?_ ?_
  · cases value with
    | object members => exact absurd rfl h
    | _ => simp [decodeMap]
  · rintro ⟨-⟩
    exact h rfl

/-- Nothing but an array is read as a list of branches. -/
theorem decodeBranchList_ok_iff_of_not_isArray {value : Value} (h : ¬IsArray value)
    (pointer : Pointer) :
    (∃ slots, decodeBranchList pointer value = .ok slots) ↔ IsArrayOf WellShaped value := by
  refine iff_of_false ?_ (not_isArrayOf h)
  cases value with
  | array items => exact absurd rfl h
  | _ => simp [decodeBranchList]

/-- **A value is decoded in the places for subschemas exactly when it has the shape for the
place.** -/
theorem decodes_iff (value : Value) : DecodesIff value := by
  -- what is neither an array nor an object only matters in the place of a schema
  have literal : ∀ {value : Value}, value.kind ≠ .object → ¬IsArray value →
      (∀ pointer, (∃ slot, decodeSlot pointer value = .ok slot) ↔ WellShaped value) →
      DecodesIff value := fun hobject harray hslot =>
    ⟨hslot, decodeMap_ok_iff_of_kind_ne hobject, decodeBranchList_ok_iff_of_not_isArray harray⟩
  induction value using Value.inductionOn with
  | null =>
      refine literal (by simp [Value.kind]) (by simp [IsArray, Value.kind]) fun pointer => ?_
      exact iff_of_true ⟨none, rfl⟩ .null
  | bool value =>
      refine literal (by simp [Value.kind]) (by simp [IsArray, Value.kind]) fun pointer => ?_
      exact iff_of_true ⟨_, rfl⟩ (.bool value)
  | number value =>
      refine literal (by simp [Value.kind]) (by simp [IsArray, Value.kind]) fun pointer => ?_
      exact iff_of_false (by simp [decodeSlot]) (by rintro ⟨⟩)
  | string text =>
      refine literal (by simp [Value.kind]) (by simp [IsArray, Value.kind]) fun pointer => ?_
      exact iff_of_false (by simp [decodeSlot]) (by rintro ⟨⟩)
  | array items ih =>
      refine ⟨fun pointer => iff_of_false (by simp [decodeSlot]) (by rintro ⟨⟩),
        decodeMap_ok_iff_of_kind_ne (by simp [Value.kind]), fun pointer => ?_⟩
      rw [decodeBranchList, decodeBranches_ok_iff ih, isArrayOf_array_iff]
  | object members ih =>
      refine ⟨fun pointer => decodeSlot_object_ok_iff ih, fun pointer => ?_,
        decodeBranchList_ok_iff_of_not_isArray (by simp [IsArray, Value.kind])⟩
      rw [decodeMap, exists_bind_pure_ok_iff, decodeEntries_ok_iff ih, isObjectOf_object_iff]

theorem ofValue?_ok_iff {value : Value} : (∃ s, ofValue? value = .ok s) ↔ WellShaped value := by
  rw [ofValue?, exists_bind_pure_ok_iff, (decodes_iff value).slot]

end Schema

/-! ### Documents -/

theorem DefinitionGroup.ofValue?_ok_iff {group : DefinitionGroup} {value : Value} :
    (∃ entries, group.ofValue? value = .ok entries) ↔
      ∀ members, value = .object members →
        Allows members group.keyword (IsObjectOf WellShaped) := by
  cases value with
  | object members =>
      rw [ofValue?, Schema.entriesMember_eq,
        Schema.member_ok_iff fun m _ => (Schema.decodes_iff m.2).map _]
      simp
  | _ => simp [ofValue?]

/-- A document is read when its three parts are. -/
theorem Document.exists_ofValue?_eq_ok_iff {value : Value} :
    (∃ d, Document.ofValue? value = .ok d) ↔
      (∃ root, Schema.ofValue? value = .ok root) ∧
        (∃ entries, DefinitionGroup.defs.ofValue? value = .ok entries) ∧
        ∃ entries, DefinitionGroup.definitions.ofValue? value = .ok entries := by
  simp only [Document.ofValue?_eq_ok_iff]
  constructor
  · rintro ⟨d, hroot, hdefs, hdefinitions⟩
    exact ⟨⟨_, hroot⟩, ⟨_, hdefs⟩, ⟨_, hdefinitions⟩⟩
  · rintro ⟨⟨root, hroot⟩, ⟨defs, hdefs⟩, ⟨definitions, hdefinitions⟩⟩
    exact ⟨⟨root, defs, definitions, Schema.sorted_of_ofValue? hroot,
      DefinitionGroup.sortedMap_of_ofValue? hdefs,
      DefinitionGroup.sortedMap_of_ofValue? hdefinitions⟩, hroot, hdefs, hdefinitions⟩

theorem Document.ofValue?_ok_iff {value : Value} :
    (∃ d, Document.ofValue? value = .ok d) ↔ WellShapedDocument value := by
  rw [exists_ofValue?_eq_ok_iff, Schema.ofValue?_ok_iff, DefinitionGroup.ofValue?_ok_iff,
    DefinitionGroup.ofValue?_ok_iff, WellShapedDocument]
  simp only [← forall_and]
  rfl

theorem decode_eq (value : Value) :
    decode value =
      match Document.ofValue? value with
      | .ok d => .ok d
      | .error fault => .error (.invalidSchema fault) := by
  rw [decode]
  cases Document.ofValue? value <;> rfl

/-- **Decoding accepts exactly the documents that obey the rules**, and when it fails it says that
the document is no schema.  Whether a value obeys the rules does not depend on what the rules do not
mention. -/
theorem Document.decode_ok_iff (value : Value) :
    ((∃ d, decode value = .ok d) ↔ WellShapedDocument value) ∧
      (∀ failure, decode value = .error failure → ∃ fault, failure = .invalidSchema fault) ∧
      ∀ members members', Alike members members' →
        (WellShaped (.object members) ↔ WellShaped (.object members')) := by
  refine ⟨?_, fun failure h => ?_, fun members members' h => ⟨.of_alike h, .of_alike h.symm⟩⟩
  · rw [← Document.ofValue?_ok_iff, decode_eq]
    cases Document.ofValue? value <;> simp
  · rw [decode_eq] at h
    cases hvalue : Document.ofValue? value with
    | ok d => simp [hvalue] at h
    | error fault =>
        rw [hvalue] at h
        cases h
        exact ⟨fault, rfl⟩

end SchemaAudit
