/-
**Where decoding stops.**

The rules for documents give each value within a document a role, from which it follows which kinds
of value are allowed there, and which of its parts have a role in turn.  Listed in decoding order,
each value before its parts, these positions do not mention decoding.  This module proves that
decoding fails exactly if one of them holds a value of a kind that is not allowed, and that its
error is about the first of them, under a pointer that leads to this value.

Main definitions:

* `Role` — what a value stands for, with `Role.allows`, the kinds that are allowed there, and
  `Role.parts`, the parts that matter, in decoding order;
* `positions` — **all positions within a value, in decoding order**;
* `firstFault?` — the fault of the first position whose value is not allowed there.

Main results:

* `resolve?_of_mem_positions` — a position's pointer leads to its value;
* `Schema.stopsAtFirstFault` — a value is decoded up to its first fault, in all places for
  subschemas;
* `Document.fault?_ofValue?` — **decoding fails with the first fault**;
* `Document.decode_fault` — **errors point at the first offending value**.
-/

import SchemaAudit.Proofs.DistinctKeys
import SchemaAudit.Proofs.Grammar
import SchemaAudit.Proofs.Pointers

set_option relaxedAutoImplicit false
set_option autoImplicit false

namespace SchemaAudit

open Json (Value Members Kind)

/-! ### Positions -/

/-- What a value within a document stands for. -/
inductive Role where
  | document
  | schema
  /-- A value of `items`. -/
  | itemSchema
  /-- A value of `type`. -/
  | typeDecl
  /-- A value of `required`. -/
  | names
  /-- One of several names, or a value of `$ref`. -/
  | name
  /-- A value of `enum`. -/
  | values
  /-- A value of `anyOf`, `oneOf` or `allOf`. -/
  | branches
  /-- A value of `properties`, `$defs` or `definitions`. -/
  | map
deriving DecidableEq

/-- The kinds of value that a role allows. -/
def Role.allows : Role → Kind → Bool
  | .document, kind | .schema, kind => kind ∈ [.null, .boolean, .object]
  | .itemSchema, kind => kind ∈ [.null, .boolean, .object, .array]
  | .typeDecl, kind => kind ∈ [.string, .array]
  | .name, kind => kind = .string
  | .names, kind | .values, kind | .branches, kind => kind = .array
  | .map, kind => kind = .object

/-- What an error says that was expected. -/
def Role.expected : Role → Shape
  | .document | .schema | .itemSchema => .schema
  | .typeDecl => .typeDecl
  | .name => .string
  | .names => .stringList
  | .values | .branches => .array
  | .map => .object

/-- A part of a value: the key or the index that leads there, and what is there. -/
structure Part where
  step : String
  role : Role
  value : Value

/-- The keywords of a schema whose values have a role, in decoding order. -/
def roleKeywords : List (String × Role) :=
  [("type", .typeDecl), ("properties", .map), ("required", .names), ("items", .itemSchema),
    ("additionalProperties", .schema), ("anyOf", .branches), ("oneOf", .branches),
    ("allOf", .branches), ("enum", .values), ("$ref", .name)]

/-- The keywords for definitions, in decoding order. -/
def definitionKeywords : List (String × Role) := [("$defs", .map), ("definitions", .map)]

/-- The members under some keywords, in the order of the keywords. -/
def keywordParts (keywords : List (String × Role)) (members : Members) : List Part :=
  keywords.filterMap fun keyword => (List.lookup keyword.1 members).map (.mk keyword.1 keyword.2)

/-- All members, in the order of the object. -/
def memberParts (role : Role) (members : Members) : List Part :=
  members.map fun m => ⟨m.1, role, m.2⟩

/-- All items, from the given index on. -/
def itemParts (role : Role) (index : Nat) (items : List Value) : List Part :=
  (items.zipIdx index).map fun item => ⟨toString item.2, role, item.1⟩

/-- The parts of a value that have a role, in decoding order. -/
def Role.parts : Role → Value → List Part
  | .document, .object members => keywordParts (roleKeywords ++ definitionKeywords) members
  | .schema, .object members | .itemSchema, .object members => keywordParts roleKeywords members
  | .map, .object members => memberParts .schema members
  | .branches, .array items => itemParts .schema 0 items
  | .typeDecl, .array items | .names, .array items => itemParts .name 0 items
  | _, _ => []

/-- A value within a document, with the pointer to it and its role. -/
structure Position where
  pointer : Pointer
  role : Role
  value : Value

/-- Whether the value is of a kind that is allowed at the position. -/
def Position.isAllowed (position : Position) : Bool := position.role.allows position.value.kind

/-- The error of a value that is not allowed at its position. -/
def Position.fault (position : Position) : Fault :=
  ⟨position.pointer, position.role.expected, position.value.kind⟩

theorem mem_of_mem_keywordParts {keywords : List (String × Role)} {members : Members} {part : Part}
    (h : part ∈ keywordParts keywords members) :
    (part.step, part.role) ∈ keywords ∧ (part.step, part.value) ∈ members := by
  obtain ⟨keyword, hkeyword, h⟩ := List.mem_filterMap.1 h
  obtain ⟨value, hvalue, rfl⟩ := Option.map_eq_some_iff.1 h
  exact ⟨hkeyword, Record.mem_of_lookup_eq_some hvalue⟩

theorem getElem?_of_mem_itemParts {role : Role} {items : List Value} {part : Part}
    (h : part ∈ itemParts role 0 items) :
    ∃ index : Nat, part.step = toString index ∧ items[index]? = some part.value := by
  obtain ⟨⟨value, index⟩, hitem, rfl⟩ := List.mem_map.1 h
  exact ⟨index, rfl, List.mem_zipIdx_iff_getElem?.1 hitem⟩

/-- A part of a value is one of its items or members. -/
theorem Role.exists_of_mem_parts {role : Role} {value : Value} {part : Part}
    (h : part ∈ role.parts value) :
    (∃ items : List Value, value = .array items ∧ ∃ index : Nat, part.step = toString index ∧
        items[index]? = some part.value) ∨
      ∃ members : Members, value = .object members ∧ (part.step, part.value) ∈ members := by
  unfold parts at h
  split at h
  case h_4 members =>
    obtain ⟨m, hm, rfl⟩ := List.mem_map.1 h
    exact .inr ⟨members, rfl, hm⟩
  case h_8 => simp at h
  all_goals first
    | exact .inl ⟨_, rfl, getElem?_of_mem_itemParts h⟩
    | exact .inr ⟨_, rfl, (mem_of_mem_keywordParts h).2⟩

theorem Role.sizeOf_lt_of_mem_parts {role : Role} {value : Value} {part : Part}
    (h : part ∈ role.parts value) : sizeOf part.value < sizeOf value := by
  rcases exists_of_mem_parts h with ⟨items, rfl, index, -, hitem⟩ | ⟨members, rfl, hm⟩
  · have := List.sizeOf_lt_of_mem (List.mem_of_getElem? hitem)
    simp only [Value.array.sizeOf_spec]
    omega
  · have := List.sizeOf_lt_of_mem hm
    simp only [Prod.mk.sizeOf_spec] at this
    simp only [Value.object.sizeOf_spec]
    omega

/-- **All positions within a value, in decoding order**: each value before its parts. -/
def positions (role : Role) (pointer : Pointer) (value : Value) : List Position :=
  ⟨pointer, role, value⟩ :: (role.parts value).attach.flatMap fun part =>
    positions part.1.role (pointer ++ [part.1.step]) part.1.value
termination_by sizeOf value
decreasing_by exact Role.sizeOf_lt_of_mem_parts part.2

theorem positions_eq (role : Role) (pointer : Pointer) (value : Value) :
    positions role pointer value =
      ⟨pointer, role, value⟩ :: (role.parts value).flatMap fun part =>
        positions part.role (pointer ++ [part.step]) part.value := by
  rw [positions, List.flatMap_subtype (g := fun part : Part =>
    positions part.role (pointer ++ [part.step]) part.value) fun _ _ => rfl, List.unattach_attach]

/-! ### Pointers to positions -/

/-- The step to a part leads to it, if keys are distinct. -/
theorem Role.step?_of_mem_parts {role : Role} {value : Value} {part : Part}
    (keys : value.KeysDistinct) (h : part ∈ role.parts value) :
    value.step? part.step = some part.value ∧ part.value.KeysDistinct := by
  rcases exists_of_mem_parts h with ⟨items, rfl, index, hstep, hitem⟩ | ⟨members, rfl, hm⟩
  · rw [hstep, Value.step?, Pointer.index?_toString]
    exact ⟨hitem, Value.keysDistinct_array_iff.1 keys _ (List.mem_of_getElem? hitem)⟩
  · obtain ⟨names, values⟩ := Value.keysDistinct_object_iff.1 keys
    exact ⟨(Record.lookup_eq_some_iff names).2 hm, values _ hm⟩

/-- **The pointer of a position leads to its value**, if keys are distinct. -/
theorem resolve?_of_mem_positions {role : Role} {pointer : Pointer} {value : Value}
    (keys : value.KeysDistinct) {position : Position}
    (h : position ∈ positions role pointer value) :
    ∃ steps, position.pointer = pointer ++ steps ∧ value.resolve? steps = some position.value := by
  -- the role of a part has nothing to do with that of the whole, hence an induction on the size
  induction hsize : sizeOf value using Nat.strong_induction_on generalizing role pointer value with
  | _ size ih =>
      subst hsize
      rw [positions_eq] at h
      rcases List.mem_cons.1 h with rfl | h
      · exact ⟨[], (List.append_nil _).symm, rfl⟩
      · obtain ⟨part, hpart, h⟩ := List.mem_flatMap.1 h
        obtain ⟨hstep, hkeys⟩ := Role.step?_of_mem_parts keys hpart
        obtain ⟨steps, hpointer, hvalue⟩ :=
          ih _ (Role.sizeOf_lt_of_mem_parts hpart) hkeys h rfl
        refine ⟨part.step :: steps, ?_, ?_⟩
        · rw [hpointer, List.append_assoc, List.singleton_append]
        · rw [Value.resolve?_cons, hstep]
          exact hvalue

/-! ### The first fault -/

/-- The fault of the first position within a value whose value is not allowed there. -/
def firstFault? (role : Role) (pointer : Pointer) (value : Value) : Option Fault :=
  ((positions role pointer value).find? (!·.isAllowed)).map Position.fault

/-- The first fault is that of the value itself, or else that of the first part that has one. -/
theorem firstFault?_eq (role : Role) (pointer : Pointer) (value : Value) :
    firstFault? role pointer value =
      if role.allows value.kind then
        (role.parts value).findSome? fun part =>
          firstFault? part.role (pointer ++ [part.step]) part.value
      else some ⟨pointer, role.expected, value.kind⟩ := by
  rw [firstFault?, positions_eq, List.find?_cons]
  cases hallows : role.allows value.kind with
  | false => simp [Position.isAllowed, hallows, Position.fault]
  | true =>
      simp only [Position.isAllowed, hallows, Bool.not_true, if_true, List.find?_flatMap,
        List.map_findSome?]
      rfl

/-- The first fault is that of a position before which all values are allowed. -/
theorem exists_position_of_firstFault? {role : Role} {pointer : Pointer} {value : Value}
    {fault : Fault} (h : firstFault? role pointer value = some fault) :
    ∃ before position after, positions role pointer value = before ++ position :: after ∧
      (∀ earlier ∈ before, earlier.isAllowed = true) ∧ position.isAllowed = false ∧
      position.fault = fault := by
  obtain ⟨position, hfind, hfault⟩ := Option.map_eq_some_iff.1 h
  obtain ⟨hposition, before, after, hpositions, hbefore⟩ := List.find?_eq_some_iff_append.1 hfind
  refine ⟨before, position, after, hpositions, fun earlier hearlier => ?_, ?_, hfault⟩
  · simpa using hbefore earlier hearlier
  · simpa using hposition

/-- The fault with which a computation fails. -/
def fault? {α : Type} : Except Fault α → Option Fault
  | .ok _ => none
  | .error fault => some fault

/-- A sequence of two steps fails with the fault of the first one that fails. -/
theorem fault?_bind {α β : Type} {x : Except Fault α} {f : α → Except Fault β}
    {first second : Option Fault} (hx : fault? x = first) (hf : ∀ a, fault? (f a) = second) :
    fault? (x >>= f) = first.or second := by
  subst hx
  cases x with
  | ok a => exact hf a
  | error fault => rfl

theorem fault?_map {α β : Type} (f : α → β) (x : Except Fault α) : fault? (f <$> x) = fault? x := by
  cases x <;> rfl

theorem fault?_bind_pure {α β : Type} (x : Except Fault α) (f : α → β) :
    fault? (x >>= fun a => pure (f a)) = fault? x := by
  cases x <;> rfl

theorem findSome?_cons_or {α β : Type} (f : α → Option β) (a : α) (l : List α) :
    (a :: l).findSome? f = (f a).or (l.findSome? f) := by
  rw [List.findSome?_cons]
  cases f a <;> rfl

/-- What is found among the members under some keywords, keyword by keyword. -/
theorem findSome?_keywordParts {β : Type} (f : Part → Option β) (keywords : List (String × Role))
    (members : Members) :
    (keywordParts keywords members).findSome? f =
      keywords.findSome? fun keyword =>
        (List.lookup keyword.1 members).bind fun value => f ⟨keyword.1, keyword.2, value⟩ := by
  induction keywords with
  | nil => rfl
  | cons keyword rest ih =>
      rw [findSome?_cons_or, ← ih, keywordParts, List.filterMap_cons]
      cases List.lookup keyword.1 members with
      | none => rfl
      | some value => exact findSome?_cons_or f _ _

/-! ### Keywords without subschemas -/

namespace Schema

theorem firstFault?_name (pointer : Pointer) (value : Value) :
    firstFault? .name pointer value =
      if value.kind = .string then none else some ⟨pointer, .string, value.kind⟩ := by
  rw [firstFault?_eq]
  cases value <;> rfl

theorem fault?_decodeStrings (pointer : Pointer) (index : Nat) (items : List Value) :
    fault? (decodeStrings pointer index items) =
      (itemParts .name index items).findSome? fun part =>
        firstFault? part.role (pointer ++ [part.step]) part.value := by
  induction items generalizing index with
  | nil => rfl
  | cons item rest ih =>
      have later := ih (index + 1)
      rw [itemParts, List.zipIdx_cons, List.map_cons, findSome?_cons_or, firstFault?_name]
      cases item with
      | string text =>
          rw [decodeStrings, fault?_bind_pure, later]
          rfl
      | _ => rfl

theorem fault?_decodeStringList (pointer : Pointer) (value : Value) :
    fault? (decodeStringList pointer value) = firstFault? .names pointer value := by
  rw [firstFault?_eq]
  cases value with
  | array items => exact fault?_decodeStrings pointer 0 items
  | _ => rfl

theorem fault?_decodeType (pointer : Pointer) (value : Value) :
    fault? (decodeType pointer value) = firstFault? .typeDecl pointer value := by
  rw [firstFault?_eq]
  cases value with
  | array items =>
      rw [decodeType, fault?_bind_pure]
      exact fault?_decodeStrings pointer 0 items
  | _ => rfl

theorem fault?_decodeEnum (pointer : Pointer) (value : Value) :
    fault? (decodeEnum pointer value) = firstFault? .values pointer value := by
  rw [firstFault?_eq]
  cases value <;> rfl

theorem fault?_decodeRef (pointer : Pointer) (value : Value) :
    fault? (decodeRef pointer value) = firstFault? .name pointer value := by
  rw [firstFault?_eq]
  cases value <;> rfl

/-- The first fault under a keyword. -/
theorem fault?_member {α : Type} {key : String} {absent : α}
    {decode : Pointer → Value → Except Fault α} {role : Role} {members : Members}
    (pointer : Pointer) (h : ∀ value, (key, value) ∈ members →
      fault? (decode (pointer ++ [key]) value) = firstFault? role (pointer ++ [key]) value) :
    fault? (member key absent decode pointer members) =
      (List.lookup key members).bind fun value => firstFault? role (pointer ++ [key]) value := by
  rw [member]
  cases hlookup : List.lookup key members with
  | none => rfl
  | some value =>
      exact h value (Record.mem_of_lookup_eq_some hlookup)

/-! ### Subschemas -/

/-- A value is decoded up to its first fault, in all places for subschemas. -/
structure StopsAtFirstFault (value : Value) : Prop where
  slot : ∀ pointer, fault? (decodeSlot pointer value) = firstFault? .schema pointer value
  map : ∀ pointer, fault? (decodeMap pointer value) = firstFault? .map pointer value
  branches : ∀ pointer,
    fault? (decodeBranchList pointer value) = firstFault? .branches pointer value

theorem fault?_decodeBranches {items : List Value} (h : ∀ item ∈ items, StopsAtFirstFault item)
    (pointer : Pointer) (index : Nat) :
    fault? (decodeBranches pointer index items) =
      (itemParts .schema index items).findSome? fun part =>
        firstFault? part.role (pointer ++ [part.step]) part.value := by
  induction items generalizing index with
  | nil => rfl
  | cons item rest ih =>
      obtain ⟨hitem, hrest⟩ := List.forall_mem_cons.1 h
      rw [itemParts, List.zipIdx_cons, List.map_cons, findSome?_cons_or, decodeBranches]
      refine fault?_bind (hitem.slot _) fun slot => ?_
      rw [fault?_bind_pure]
      exact ih hrest (index + 1)

theorem fault?_decodeEntries {members : Members} (h : ∀ m ∈ members, StopsAtFirstFault m.2)
    (pointer : Pointer) :
    fault? (decodeEntries pointer members) =
      (memberParts .schema members).findSome? fun part =>
        firstFault? part.role (pointer ++ [part.step]) part.value := by
  induction members with
  | nil => rfl
  | cons m rest ih =>
      obtain ⟨hm, hrest⟩ := List.forall_mem_cons.1 h
      rw [memberParts, List.map_cons, findSome?_cons_or, decodeEntries]
      refine fault?_bind (hm.slot _) fun slot => ?_
      rw [fault?_bind_pure]
      exact ih hrest

theorem fault?_decodeItems {value : Value} (h : StopsAtFirstFault value) (pointer : Pointer) :
    fault? (decodeItems pointer value) = firstFault? .itemSchema pointer value := by
  -- but for arrays, the places under `items` are those for schemas
  have same : value.kind ≠ .array →
      firstFault? .schema pointer value = firstFault? .itemSchema pointer value := by
    intro hkind
    rw [firstFault?_eq, firstFault?_eq]
    cases value with
    | array items => exact absurd rfl hkind
    | _ => rfl
  rw [decodeItems]
  split
  · rename_i hkind
    rw [firstFault?_eq]
    cases value with
    | array items => rfl
    | _ => cases hkind
  · rename_i hkind
    rw [h.slot, same hkind]

/-- The first fault within an object is that of the first keyword under which there is one. -/
theorem firstFault?_object (pointer : Pointer) (members : Members) :
    firstFault? .schema pointer (.object members) =
      roleKeywords.findSome? fun keyword => (List.lookup keyword.1 members).bind fun value =>
        firstFault? keyword.2 (pointer ++ [keyword.1]) value := by
  rw [firstFault?_eq]
  exact findSome?_keywordParts _ _ _

theorem fault?_decodeSlot_object {members : Members} (h : ∀ m ∈ members, StopsAtFirstFault m.2)
    (pointer : Pointer) :
    fault? (decodeSlot pointer (.object members)) =
      firstFault? .schema pointer (.object members) := by
  have branches : ∀ key, fault? (member key [] decodeBranchList pointer members) =
      (List.lookup key members).bind fun value =>
        firstFault? .branches (pointer ++ [key]) value := fun key =>
    fault?_member pointer fun value hvalue => (h _ hvalue).branches _
  simp only [decodeSlot, itemsMember_eq, slotMember_eq, branchesMember_eq, entriesMember_eq]
  rw [firstFault?_object]
  simp only [roleKeywords, findSome?_cons_or, List.findSome?_nil]
  -- on both sides, keyword after keyword in the same order
  refine fault?_bind (fault?_member pointer fun value _ => ?_) fun type => ?_
  · rw [fault?_map, fault?_decodeType]
  refine fault?_bind (fault?_member pointer fun value hvalue => (h _ hvalue).map _)
    fun properties => ?_
  refine fault?_bind (fault?_member pointer fun value _ => fault?_decodeStringList _ value)
    fun required => ?_
  refine fault?_bind (fault?_member pointer fun value hvalue => fault?_decodeItems (h _ hvalue) _)
    fun items => ?_
  refine fault?_bind (fault?_member pointer fun value hvalue => (h _ hvalue).slot _)
    fun additional => ?_
  refine fault?_bind (branches "anyOf") fun anyOf => ?_
  refine fault?_bind (branches "oneOf") fun oneOf => ?_
  refine fault?_bind (branches "allOf") fun allOf => ?_
  refine fault?_bind (fault?_member pointer fun value _ => fault?_decodeEnum _ value)
    fun enum => ?_
  exact fault?_bind (fault?_member pointer fun value _ => fault?_decodeRef _ value) fun ref => rfl

/-- **A value is decoded up to its first fault**, in all places for subschemas. -/
theorem stopsAtFirstFault (value : Value) : StopsAtFirstFault value := by
  induction value using Value.inductionOn with
  | array items ih =>
      refine ⟨fun pointer => ?_, fun pointer => ?_, fun pointer => ?_⟩
      · rw [firstFault?_eq]
        rfl
      · rw [firstFault?_eq]
        rfl
      · rw [firstFault?_eq]
        exact fault?_decodeBranches ih pointer 0
  | object members ih =>
      refine ⟨fault?_decodeSlot_object ih, fun pointer => ?_, fun pointer => ?_⟩
      · rw [firstFault?_eq, decodeMap, fault?_bind_pure]
        exact fault?_decodeEntries ih pointer
      · rw [firstFault?_eq]
        rfl
  | _ =>
      refine ⟨fun pointer => ?_, fun pointer => ?_, fun pointer => ?_⟩ <;>
        rw [firstFault?_eq] <;> rfl

theorem fault?_ofValue? (value : Value) :
    fault? (ofValue? value) = firstFault? .schema [] value := by
  rw [ofValue?, fault?_bind_pure, (stopsAtFirstFault value).slot]

end Schema

/-! ### Documents -/

theorem DefinitionGroup.fault?_ofValue? (group : DefinitionGroup) (members : Members) :
    fault? (group.ofValue? (.object members)) =
      (List.lookup group.keyword members).bind fun value =>
        firstFault? .map [group.keyword] value := by
  rw [ofValue?, Schema.entriesMember_eq]
  exact Schema.fault?_member [] fun value _ => (Schema.stopsAtFirstFault value).map _

/-- A document fails with the first fault of its three parts. -/
theorem Document.fault?_ofValue?_eq_or (value : Value) :
    fault? (Document.ofValue? value) =
      (fault? (Schema.ofValue? value)).or ((fault? (DefinitionGroup.defs.ofValue? value)).or
        (fault? (DefinitionGroup.definitions.ofValue? value))) := by
  unfold Document.ofValue?
  split
  · rename_i hroot
    simp [hroot, fault?]
  · rename_i hroot
    split
    · rename_i hdefs
      simp [hroot, hdefs, fault?]
    · rename_i hdefs
      split
      · rename_i hdefinitions
        simp [hroot, hdefs, hdefinitions, fault?]
      · rename_i hdefinitions
        simp [hroot, hdefs, hdefinitions, fault?]

/-- **Decoding fails with the first fault.** -/
theorem Document.fault?_ofValue? (value : Value) :
    fault? (Document.ofValue? value) = firstFault? .document [] value := by
  rw [fault?_ofValue?_eq_or, Schema.fault?_ofValue?]
  cases value with
  | object members =>
      rw [DefinitionGroup.fault?_ofValue?, DefinitionGroup.fault?_ofValue?,
        Schema.firstFault?_object, firstFault?_eq .document]
      refine Eq.trans ?_ (findSome?_keywordParts _ _ _).symm
      rw [List.findSome?_append]
      simp only [definitionKeywords, findSome?_cons_or, List.findSome?_nil, Option.or_none]
      rfl
  | _ =>
      rw [firstFault?_eq, firstFault?_eq]
      rfl

/-! ### Errors and what they point at -/

theorem Role.document_allows_eq_false_iff {kind : Kind} :
    Role.document.allows kind = false ↔ kind ∈ [Kind.number, .string, .array] := by
  cases kind <;> decide

/-- Only the document itself is at the pointer that is written as a slash. -/
theorem text_eq_slash_iff_of_mem_positions {value : Value} {position : Position}
    (keys : value.KeysDistinct) (h : position ∈ positions .document [] value) :
    position.pointer.text = "/" ↔ position = ⟨[], .document, value⟩ := by
  refine ⟨fun htext => ?_, fun hroot => hroot ▸ rfl⟩
  rw [positions_eq] at h
  refine (List.mem_cons.1 h).resolve_right fun hbelow => ?_
  obtain ⟨part, hpart, hbelow⟩ := List.mem_flatMap.1 hbelow
  obtain ⟨steps, hpointer, -⟩ :=
    resolve?_of_mem_positions (Role.step?_of_mem_parts keys hpart).2 hbelow
  rw [hpointer] at htext
  rcases Pointer.text_eq_slash_iff.1 htext with h | h
  · cases h
  -- an empty key is no keyword
  · have hstep : part.step = "" := (List.cons.inj h).1
    cases value with
    | object members =>
        have hkeyword := (mem_of_mem_keywordParts hpart).1
        rw [hstep] at hkeyword
        simp [roleKeywords, definitionKeywords] at hkeyword
    | _ => simp [Role.parts] at hpart

theorem firstFault?_of_decode {value : Value} {fault : Fault}
    (h : decode value = .error (.invalidSchema fault)) :
    firstFault? .document [] value = some fault := by
  rw [← Document.fault?_ofValue?]
  rw [decode_eq] at h
  cases hvalue : Document.ofValue? value with
  | ok d => simp [hvalue] at h
  | error fault' =>
      rw [hvalue] at h
      cases h
      rfl

/-- **Errors point at the first offending value.**  The pointer of an error is a slash exactly if
the document itself is of the wrong kind.  Otherwise its text, read as a pointer, leads to a value
of a kind that is not allowed at its position, before which there is no such value in decoding
order.  What the error says was found there is the kind of this value. -/
theorem Document.decode_fault {value : Value} (keys : value.KeysDistinct) {fault : Fault}
    (h : decode value = .error (.invalidSchema fault)) :
    (fault.pointer.text = "/" ↔ value.kind ∈ [Kind.number, .string, .array]) ∧
      ∃ before position after,
        positions .document [] value = before ++ position :: after ∧
        (∀ earlier ∈ before, earlier.isAllowed = true) ∧ position.isAllowed = false ∧
        position.pointer = fault.pointer ∧
        (fault.pointer.text = "/" → position.value = value) ∧
        (fault.pointer.text ≠ "/" → value.at? fault.pointer.text = some position.value) ∧
        fault.message =
          "expected " ++ position.role.expected.text ++ ", got " ++ position.value.kind.name := by
  obtain ⟨before, position, after, hpositions, hbefore, hposition, rfl⟩ :=
    exists_position_of_firstFault? (firstFault?_of_decode h)
  have hmem : position ∈ positions .document [] value := by simp [hpositions]
  have root := text_eq_slash_iff_of_mem_positions keys hmem
  obtain ⟨steps, hpointer, hresolve⟩ := resolve?_of_mem_positions keys hmem
  rw [List.nil_append] at hpointer
  dsimp only [Position.fault]
  refine ⟨?_, before, position, after, hpositions, hbefore, hposition, rfl, fun htext => ?_,
    fun htext => ?_, rfl⟩
  · rw [root, ← Role.document_allows_eq_false_iff]
    constructor
    · rintro rfl
      exact hposition
    · intro hkind
      rw [positions_eq] at hpositions
      cases before with
      | nil => exact (List.cons.inj hpositions).1.symm
      | cons first before =>
          have hfirst := hbefore first List.mem_cons_self
          rw [← (List.cons.inj hpositions).1, Position.isAllowed, hkind] at hfirst
          cases hfirst
  · rw [root.1 htext]
  · have hsteps : position.pointer ≠ [] := fun hnil => htext (congrArg Pointer.text hnil)
    rw [Value.at?, Pointer.ofText?_text hsteps, hpointer]
    exact hresolve

/-- A document with two offending values; the one that comes first in decoding order comes second in
the text, below keys that have to be escaped. -/
def misshapen : Value :=
  .object [
    ("required", .string "a/b"),
    ("properties", .object [
      ("a/b", .object [("", .number (.int 0)), ("anyOf", .array [.null, .object [
        ("properties", .object [("", .object [("type", .array [.string "string", .null])])])]])]),
      ("~", .bool true)])]

/-- The fault of the `null` among the types of a property without a name. -/
def misshapenFault : Fault :=
  ⟨["properties", "a/b", "anyOf", "1", "properties", "", "type", "1"], .string, .null⟩

theorem keysDistinct_misshapen : misshapen.KeysDistinct := by
  simp [misshapen]

/-- The pointer of its error leads to the first offending value of a document. -/
theorem decode_misshapen :
    misshapen.KeysDistinct ∧ decode misshapen = .error (.invalidSchema misshapenFault) ∧
      misshapenFault.pointer.text = "/properties/a~1b/anyOf/1/properties//type/1" ∧
      ∃ position ∈ positions .document [] misshapen, position.isAllowed = false ∧
        misshapen.at? "/properties/a~1b/anyOf/1/properties//type/1" = some position.value ∧
        misshapenFault.message = "expected " ++ position.role.expected.text ++ ", got " ++
          position.value.kind.name := by
  have hdecode : decode misshapen = .error (.invalidSchema misshapenFault) := rfl
  have htext : misshapenFault.pointer.text = "/properties/a~1b/anyOf/1/properties//type/1" := by
    decide
  obtain ⟨-, before, position, after, hpositions, -, hallowed, -, -, hvalue, hmessage⟩ :=
    Document.decode_fault keysDistinct_misshapen hdecode
  rw [htext] at hvalue
  exact ⟨keysDistinct_misshapen, hdecode, htext, position, by simp [hpositions], hallowed,
    hvalue (by decide), hmessage⟩

end SchemaAudit
