/-
**From JSON to schemas.**

Keywords that an audit looks at must have the right shape, also beside a `$ref`; all other members
of an object are ignored. Decoding stops at the first offending value, in the order in which the
keywords are listed here and, within `properties` and the definitions, in the order of the
document.

* `Pointer` — the keys and indices that lead from a value to one of its parts; `Pointer.text` — the
  usual notation, in which `~` and `/` within a key are escaped;
* `Fault` — where decoding stopped, what was expected there and what was found;
* `Schema.decodeSlot`, `Schema.ofValue?` — a subschema that may be `null`, and a schema;
* `Schema.slotMember_eq`, `Schema.itemsMember_eq`, `Schema.branchesMember_eq`,
  `Schema.entriesMember_eq` — a keyword is decoded from the member under its key, wherever among
  the members that one is;
* `Schema.ReadFrom`, `Schema.decodeSlot_eq_ok` — what a slot is read from;
* `Schema.decodesSorted` — what is decoded is sorted;
* `Document.ofValue?` — a document; `Document.ofValue?_eq_ok_iff` — it is made of its three parts.
-/

import SchemaAudit.Schema.Basic

set_option relaxedAutoImplicit false
set_option autoImplicit false

namespace SchemaAudit

open Json (Value Members Kind)

/-! ### Pointers -/

/-- The steps from a value to one of its parts, outermost first. -/
abbrev Pointer := List String

namespace Pointer

/-- A character of a step as the notation writes it. -/
def escape : Char → List Char
  | '~' => ['~', '0']
  | '/' => ['~', '1']
  | c => [c]

/-- A step as the notation writes it, with the slash in front. -/
def segment (step : String) : List Char :=
  '/' :: step.toList.flatMap escape

/-- The notation of a pointer; the whole value is written as a slash. -/
def text : Pointer → String
  | [] => "/"
  | steps => String.ofList (steps.flatMap segment)

example : text ["a/b", "", "~"] = "/a~1b//~0" := by decide

end Pointer

/-! ### Faults -/

/-- What a keyword expects. -/
inductive Shape where
  | schema
  | typeDecl
  | stringList
  | string
  | array
  | object
deriving DecidableEq, Inhabited

/-- The wording of what is expected. -/
def Shape.text : Shape → String
  | .schema => "schema object or boolean"
  | .typeDecl => "string or array of strings"
  | .stringList => "array of strings"
  | .string => "string"
  | .array => "array"
  | .object => "object"

/-- A value whose shape is not allowed at its position. -/
structure Fault where
  /-- The position of the value in the document. -/
  pointer : Pointer
  expected : Shape
  found : Kind
deriving DecidableEq, Inhabited

/-- The wording of a fault, position aside. -/
def Fault.message (fault : Fault) : String :=
  "expected " ++ fault.expected.text ++ ", got " ++ fault.found.name

/-! ### Keywords without subschemas -/

namespace Schema

/-- The strings of an array, from the given index on. -/
def decodeStrings (pointer : Pointer) (index : Nat) : List Value → Except Fault (List String)
  | [] => .ok []
  | .string text :: rest => return text :: (← decodeStrings pointer (index + 1) rest)
  | item :: _ => .error ⟨pointer ++ [toString index], .string, item.kind⟩

/-- A list of strings. -/
def decodeStringList (pointer : Pointer) : Value → Except Fault (List String)
  | .array items => decodeStrings pointer 0 items
  | value => .error ⟨pointer, .stringList, value.kind⟩

/-- A value of `type`. -/
def decodeType (pointer : Pointer) : Value → Except Fault TypeDecl
  | .string name => .ok (.single name)
  | .array items => return .list (← decodeStrings pointer 0 items)
  | value => .error ⟨pointer, .typeDecl, value.kind⟩

/-- A value of `enum`. -/
def decodeEnum (pointer : Pointer) : Value → Except Fault (List Value)
  | .array items => .ok items
  | value => .error ⟨pointer, .array, value.kind⟩

/-- A value of `$ref`. -/
def decodeRef (pointer : Pointer) : Value → Except Fault String
  | .string target => .ok target
  | value => .error ⟨pointer, .string, value.kind⟩

/-- The member under `key`, decoded, or `absent`. -/
def member {α : Type} (key : String) (absent : α) (decode : Pointer → Value → Except Fault α)
    (pointer : Pointer) (members : Members) : Except Fault α :=
  match List.lookup key members with
  | none => .ok absent
  | some value => decode (pointer ++ [key]) value

/-! ### Subschemas -/

mutual

/-- The schema in a slot. -/
def decodeSlot (pointer : Pointer) : Value → Except Fault Slot
  | .null => .ok none
  | .bool value => .ok (some (.boolean value))
  | .object members => do
    let type ← member "type" none (fun p v => some <$> decodeType p v) pointer members
    let properties ← entriesMember "properties" pointer members
    let required ← member "required" [] decodeStringList pointer members
    let items ← itemsMember pointer members
    let additional ← slotMember "additionalProperties" pointer members
    let anyOf ← branchesMember "anyOf" pointer members
    let oneOf ← branchesMember "oneOf" pointer members
    let allOf ← branchesMember "allOf" pointer members
    let enum ← member "enum" [] decodeEnum pointer members
    let ref ← member "$ref" "" decodeRef pointer members
    let const := List.lookup "const" members
    return some (.object
      { type, properties, required, items, additional, anyOf, oneOf, allOf, const, enum, ref })
  | value => .error ⟨pointer, .schema, value.kind⟩

/-- The slot under `key`; without such a member it is empty. -/
def slotMember (key : String) (pointer : Pointer) : List (String × Value) → Except Fault Slot
  | [] => .ok none
  | (k, value) :: rest =>
    if k = key then decodeSlot (pointer ++ [key]) value else slotMember key pointer rest

/-- The slot under `items`. An array there, with one schema per item, is not looked at. -/
def itemsMember (pointer : Pointer) : List (String × Value) → Except Fault Slot
  | [] => .ok none
  | (k, value) :: rest =>
    if k = "items" then
      if value.kind = .array then .ok none else decodeSlot (pointer ++ ["items"]) value
    else itemsMember pointer rest

/-- The slots of the array under `key`. -/
def branchesMember (key : String) (pointer : Pointer) :
    List (String × Value) → Except Fault (List Slot)
  | [] => .ok []
  | (k, value) :: rest =>
    if k = key then decodeBranchList (pointer ++ [key]) value
    else branchesMember key pointer rest

/-- The map of slots in the object under `key`. -/
def entriesMember (key : String) (pointer : Pointer) :
    List (String × Value) → Except Fault (NameMap Slot)
  | [] => .ok []
  | (k, value) :: rest =>
    if k = key then decodeMap (pointer ++ [key]) value else entriesMember key pointer rest

/-- A value of `anyOf`, `oneOf` or `allOf`. -/
def decodeBranchList (pointer : Pointer) : Value → Except Fault (List Slot)
  | .array branches => decodeBranches pointer 0 branches
  | value => .error ⟨pointer, .array, value.kind⟩

/-- A value of `properties`, `$defs` or `definitions`. -/
def decodeMap (pointer : Pointer) : Value → Except Fault (NameMap Slot)
  | .object entries => return NameMap.ofList (← decodeEntries pointer entries)
  | value => .error ⟨pointer, .object, value.kind⟩

/-- The slots of an array, from the given index on. -/
def decodeBranches (pointer : Pointer) (index : Nat) : List Value → Except Fault (List Slot)
  | [] => .ok []
  | branch :: rest => do
    let slot ← decodeSlot (pointer ++ [toString index]) branch
    return slot :: (← decodeBranches pointer (index + 1) rest)

/-- The slots of an object's members, in their order. -/
def decodeEntries (pointer : Pointer) : List (String × Value) → Except Fault (List (String × Slot))
  | [] => .ok []
  | (name, value) :: rest => do
    let slot ← decodeSlot (pointer ++ [name]) value
    return (name, slot) :: (← decodeEntries pointer rest)

end

/-! ### Members by their keys -/

/-- A value of `items`. -/
def decodeItems (pointer : Pointer) (value : Value) : Except Fault Slot :=
  if value.kind = .array then .ok none else decodeSlot pointer value

/-- The member under a key comes first or among the others. -/
theorem member_cons {α : Type} (key : String) (absent : α)
    (decode : Pointer → Value → Except Fault α) (pointer : Pointer) (k : String) (value : Value)
    (rest : Members) :
    member key absent decode pointer ((k, value) :: rest) =
      if k = key then decode (pointer ++ [key]) value
      else member key absent decode pointer rest := by
  by_cases h : k = key
  · simp [member, h]
  · have h' : (key == k) = false := by simpa using fun e => h e.symm
    simp [member, List.lookup_cons, h, h']

theorem slotMember_eq (key : String) (pointer : Pointer) (members : Members) :
    slotMember key pointer members = member key none decodeSlot pointer members := by
  induction members with
  | nil => rfl
  | cons head rest ih => rw [member_cons, ← ih]; rfl

theorem itemsMember_eq (pointer : Pointer) (members : Members) :
    itemsMember pointer members = member "items" none decodeItems pointer members := by
  induction members with
  | nil => rfl
  | cons head rest ih => rw [member_cons, ← ih]; rfl

theorem branchesMember_eq (key : String) (pointer : Pointer) (members : Members) :
    branchesMember key pointer members = member key [] decodeBranchList pointer members := by
  induction members with
  | nil => rfl
  | cons head rest ih => rw [member_cons, ← ih]; rfl

theorem entriesMember_eq (key : String) (pointer : Pointer) (members : Members) :
    entriesMember key pointer members = member key [] decodeMap pointer members := by
  induction members with
  | nil => rfl
  | cons head rest ih => rw [member_cons, ← ih]; rfl

/-! ### What a slot is read from -/

/-- A sequence of two steps succeeds if both of them do. -/
theorem bind_eq_ok_iff {ε α β : Type} {x : Except ε α} {f : α → Except ε β} {b : β} :
    x >>= f = .ok b ↔ ∃ a, x = .ok a ∧ f a = .ok b := by
  cases x with
  | error e => simp [bind, Except.bind]
  | ok a => simp [bind, Except.bind]

/-- The keywords of a schema are read from the members of an object. -/
structure ReadFrom (p : Pointer) (members : Members) (k : Keywords Schema) : Prop where
  type : member "type" none (fun p v => some <$> decodeType p v) p members = .ok k.type
  properties : member "properties" [] decodeMap p members = .ok k.properties
  required : member "required" [] decodeStringList p members = .ok k.required
  items : member "items" none decodeItems p members = .ok k.items
  additional : member "additionalProperties" none decodeSlot p members = .ok k.additional
  anyOf : member "anyOf" [] decodeBranchList p members = .ok k.anyOf
  oneOf : member "oneOf" [] decodeBranchList p members = .ok k.oneOf
  allOf : member "allOf" [] decodeBranchList p members = .ok k.allOf
  enum : member "enum" [] decodeEnum p members = .ok k.enum
  ref : member "$ref" "" decodeRef p members = .ok k.ref
  const : List.lookup "const" members = k.const

/-- A slot is empty, a literal, or a schema whose keywords are read from an object. -/
theorem decodeSlot_eq_ok {p : Pointer} {v : Value} {slot : Slot} (h : decodeSlot p v = .ok slot) :
    (v = .null ∧ slot = none) ∨ (∃ value, v = .bool value ∧ slot = some (.boolean value)) ∨
      ∃ members k, v = .object members ∧ slot = some (.object k) ∧ ReadFrom p members k := by
  cases v with
  | null =>
      cases h
      exact .inl ⟨rfl, rfl⟩
  | bool value =>
      cases h
      exact .inr (.inl ⟨value, rfl, rfl⟩)
  | object members =>
      simp only [decodeSlot, itemsMember_eq, slotMember_eq, branchesMember_eq, entriesMember_eq]
        at h
      obtain ⟨type, htype, h⟩ := bind_eq_ok_iff.1 h
      obtain ⟨properties, hproperties, h⟩ := bind_eq_ok_iff.1 h
      obtain ⟨required, hrequired, h⟩ := bind_eq_ok_iff.1 h
      obtain ⟨items, hitems, h⟩ := bind_eq_ok_iff.1 h
      obtain ⟨additional, hadditional, h⟩ := bind_eq_ok_iff.1 h
      obtain ⟨anyOf, hanyOf, h⟩ := bind_eq_ok_iff.1 h
      obtain ⟨oneOf, honeOf, h⟩ := bind_eq_ok_iff.1 h
      obtain ⟨allOf, hallOf, h⟩ := bind_eq_ok_iff.1 h
      obtain ⟨enum, henum, h⟩ := bind_eq_ok_iff.1 h
      obtain ⟨ref, href, h⟩ := bind_eq_ok_iff.1 h
      cases h
      exact .inr (.inr ⟨members, _, rfl, rfl, ⟨htype, hproperties, hrequired, hitems, hadditional,
        hanyOf, honeOf, hallOf, henum, href, rfl⟩⟩)
  | _ => cases h

/-! ### What is decoded is sorted -/

/-- What stands under a key is decoded from one of the members. -/
theorem eq_or_mem_of_member {α : Type} {key : String} {absent : α}
    {decode : Pointer → Value → Except Fault α} {pointer : Pointer} {members : Members} {a : α}
    (h : member key absent decode pointer members = .ok a) :
    a = absent ∨ ∃ m ∈ members, decode (pointer ++ [key]) m.2 = .ok a := by
  induction members with
  | nil => exact .inl (by simpa [member] using h.symm)
  | cons head rest ih =>
    obtain ⟨k, value⟩ := head
    rw [member_cons] at h
    split at h
    · exact .inr ⟨(k, value), List.mem_cons_self, h⟩
    · rcases ih h with h | ⟨m, hm, h⟩
      · exact .inl h
      · exact .inr ⟨m, List.mem_cons_of_mem _ hm, h⟩

/-- Every branch is decoded from an item of the array. -/
theorem exists_of_mem_decodeBranches {pointer : Pointer} {values : List Value} {index : Nat}
    {slots : List Slot} (h : decodeBranches pointer index values = .ok slots) {slot : Slot}
    (hslot : slot ∈ slots) : ∃ value ∈ values, ∃ p, decodeSlot p value = .ok slot := by
  induction values generalizing index slots with
  | nil =>
    cases h
    simp at hslot
  | cons value rest ih =>
    rw [decodeBranches] at h
    obtain ⟨first, hfirst, h⟩ := bind_eq_ok_iff.1 h
    obtain ⟨others, hothers, h⟩ := bind_eq_ok_iff.1 h
    cases h
    rcases List.mem_cons.1 hslot with rfl | hslot
    · exact ⟨value, List.mem_cons_self, _, hfirst⟩
    · obtain ⟨v, hv, p, h⟩ := ih hothers hslot
      exact ⟨v, List.mem_cons_of_mem _ hv, p, h⟩

/-- Every entry is decoded from a member of the object. -/
theorem exists_of_mem_decodeEntries {pointer : Pointer} {members : List (String × Value)}
    {entries : List (String × Slot)} (h : decodeEntries pointer members = .ok entries)
    {entry : String × Slot} (hentry : entry ∈ entries) :
    ∃ m ∈ members, ∃ p, decodeSlot p m.2 = .ok entry.2 := by
  induction members generalizing entries with
  | nil =>
    cases h
    simp at hentry
  | cons head rest ih =>
    obtain ⟨name, value⟩ := head
    rw [decodeEntries] at h
    obtain ⟨first, hfirst, h⟩ := bind_eq_ok_iff.1 h
    obtain ⟨others, hothers, h⟩ := bind_eq_ok_iff.1 h
    cases h
    rcases List.mem_cons.1 hentry with rfl | hentry
    · exact ⟨(name, value), List.mem_cons_self, _, hfirst⟩
    · obtain ⟨m, hm, p, h⟩ := ih hothers hentry
      exact ⟨m, List.mem_cons_of_mem _ hm, p, h⟩

/-- Whatever reading of a value succeeds, the result is sorted. -/
structure DecodesSorted (value : Value) : Prop where
  slot : ∀ pointer slot, decodeSlot pointer value = .ok slot → ∀ s ∈ slot, Sorted s
  map : ∀ pointer entries, decodeMap pointer value = .ok entries → SortedMap entries
  branches : ∀ pointer slots, decodeBranchList pointer value = .ok slots →
    ∀ s, some s ∈ slots → Sorted s

/-- The keywords of an object are sorted if what its members decode to is. -/
theorem sorted_of_decodeSlot_object {pointer : Pointer} {members : Members} {slot : Slot}
    (h : decodeSlot pointer (.object members) = .ok slot)
    (ih : ∀ m ∈ members, DecodesSorted m.2) : ∀ s ∈ slot, Sorted s := by
  have ofSlot : ∀ {key : String} {found : Slot},
      member key none decodeSlot pointer members = .ok found → ∀ s ∈ found, Sorted s := by
    intro key found h
    rcases eq_or_mem_of_member h with rfl | ⟨m, hm, h⟩
    · simp
    · exact (ih m hm).slot _ _ h
  have ofBranches : ∀ {key : String} {found : List Slot},
      member key [] decodeBranchList pointer members = .ok found →
        ∀ s, some s ∈ found → Sorted s := by
    intro key found h
    rcases eq_or_mem_of_member h with rfl | ⟨m, hm, h⟩
    · simp
    · exact (ih m hm).branches _ _ h
  obtain ⟨⟨⟩, -⟩ | ⟨_, ⟨⟩, -⟩ | ⟨_, k, ⟨⟩, rfl, read⟩ := decodeSlot_eq_ok h
  have hmap : SortedMap k.properties := by
    rcases eq_or_mem_of_member read.properties with h | ⟨m, hm, h⟩
    · rw [h]
      exact sortedMap_nil
    · exact (ih m hm).map _ _ h
  have hitem : ∀ s ∈ k.items, Sorted s := by
    rcases eq_or_mem_of_member read.items with h | ⟨m, hm, h⟩
    · simp [h]
    · rw [decodeItems] at h
      split at h
      · obtain h := Except.ok.inj h
        simp [← h]
      · exact (ih m hm).slot _ _ h
  rintro s ⟨⟩
  refine .object hmap.1 fun part hpart => ?_
  rcases Keywords.mem_subschemas_iff.1 hpart with ⟨name, h⟩ | h | h | h | h | h
  · exact hmap.2 _ h part rfl
  · exact hitem part h
  · exact ofSlot read.additional part h
  · exact ofBranches read.anyOf part h
  · exact ofBranches read.oneOf part h
  · exact ofBranches read.allOf part h

theorem decodesSorted (value : Value) : DecodesSorted value := by
  induction value using Value.inductionOn with
  | null => exact ⟨by simp [decodeSlot], by simp [decodeMap], by simp [decodeBranchList]⟩
  | bool value =>
    refine ⟨fun pointer slot h => ?_, by simp [decodeMap], by simp [decodeBranchList]⟩
    cases h
    rintro s ⟨⟩
    exact .boolean value
  | number value => exact ⟨by simp [decodeSlot], by simp [decodeMap], by simp [decodeBranchList]⟩
  | string text => exact ⟨by simp [decodeSlot], by simp [decodeMap], by simp [decodeBranchList]⟩
  | array items ih =>
    refine ⟨by simp [decodeSlot], by simp [decodeMap], fun pointer slots h s hs => ?_⟩
    obtain ⟨value, hvalue, p, h⟩ := exists_of_mem_decodeBranches h hs
    exact (ih value hvalue).slot p _ h s rfl
  | object members ih =>
    refine ⟨fun pointer slot h => sorted_of_decodeSlot_object h ih, fun pointer entries h => ?_,
      by simp [decodeBranchList]⟩
    rw [decodeMap] at h
    obtain ⟨decoded, hdecoded, h⟩ := bind_eq_ok_iff.1 h
    cases h
    refine ⟨NameMap.sorted_ofList decoded, fun entry hentry s hs => ?_⟩
    obtain ⟨m, hm, p, h⟩ := exists_of_mem_decodeEntries hdecoded (NameMap.mem_of_mem_ofList hentry)
    exact (ih m hm).slot p _ h s hs

/-! ### Whole values -/

/-- The schema of a JSON value; `null` is the schema that says nothing. -/
def ofValue? (value : Value) : Except Fault Schema :=
  return (← decodeSlot [] value).getD .empty

theorem sorted_of_ofValue? {value : Value} {s : Schema} (h : ofValue? value = .ok s) :
    s.Sorted := by
  obtain ⟨slot, hslot, h⟩ := bind_eq_ok_iff.1 h
  cases h
  cases slot with
  | none => exact sorted_empty
  | some s => exact (decodesSorted value).slot _ _ hslot s rfl

end Schema

/-- The definitions of one group. Only an object has any. -/
def DefinitionGroup.ofValue? (group : DefinitionGroup) : Value → Except Fault (NameMap Slot)
  | .object members => Schema.entriesMember group.keyword [] members
  | _ => .ok []

theorem DefinitionGroup.sortedMap_of_ofValue? {group : DefinitionGroup} {value : Value}
    {entries : NameMap Slot} (h : group.ofValue? value = .ok entries) :
    Schema.SortedMap entries := by
  cases value with
  | object members =>
    rw [ofValue?, Schema.entriesMember_eq] at h
    rcases Schema.eq_or_mem_of_member h with rfl | ⟨m, -, h⟩
    · exact Schema.sortedMap_nil
    · exact (Schema.decodesSorted m.2).map _ _ h
  | _ =>
    cases h
    exact Schema.sortedMap_nil

/-- The document of a JSON value. -/
def Document.ofValue? (value : Value) : Except Fault Document :=
  match hroot : Schema.ofValue? value with
  | .error fault => .error fault
  | .ok root =>
    match hdefs : DefinitionGroup.defs.ofValue? value with
    | .error fault => .error fault
    | .ok defs =>
      match hdefinitions : DefinitionGroup.definitions.ofValue? value with
      | .error fault => .error fault
      | .ok definitions =>
        .ok {
          root, defs, definitions
          sorted_root := Schema.sorted_of_ofValue? hroot
          sorted_defs := DefinitionGroup.sortedMap_of_ofValue? hdefs
          sorted_definitions := DefinitionGroup.sortedMap_of_ofValue? hdefinitions }

/-- A document is read when its root and its two groups of definitions are. -/
theorem Document.ofValue?_eq_ok_iff {value : Value} {d : Document} :
    Document.ofValue? value = .ok d ↔
      Schema.ofValue? value = .ok d.root ∧ DefinitionGroup.defs.ofValue? value = .ok d.defs ∧
        DefinitionGroup.definitions.ofValue? value = .ok d.definitions := by
  obtain ⟨root, defs, definitions, _, _, _⟩ := d
  unfold Document.ofValue?
  constructor
  · intro h
    split at h
    · cases h
    · split at h
      · cases h
      · split at h
        · cases h
        · rename_i root' hroot defs' hdefs definitions' hdefinitions
          cases h
          exact ⟨hroot, hdefs, hdefinitions⟩
  · rintro ⟨hroot, hdefs, hdefinitions⟩
    dsimp only at hroot hdefs hdefinitions
    split
    · rename_i h
      simp [hroot] at h
    · split
      · rename_i h
        simp [hdefs] at h
      · split
        · rename_i h
          simp [hdefinitions] at h
        · rename_i root' h₁ defs' h₂ definitions' h₃
          simp only [hroot, hdefs, hdefinitions, Except.ok.injEq] at h₁ h₂ h₃
          subst h₁ h₂ h₃
          rfl

end SchemaAudit
