/-
**What decoding tells apart.**

Decoding forgets what an audit does not look at.  How much that is can be said without decoding: it
forgets what the core of a schema leaves out, and nothing else.  Values that are decoded to equal
schemas have the same core, up to the order of members.  Hence a presence that matters to an audit,
at any depth, shows in what is decoded.

Main definitions:

* `Schema.EqualUpTo` — **equal schemas**;
* `Schema.Reflected` — what is read from a value tells its core.

Main results:

* `Schema.decodeMap_eq_ok`, `Schema.decodeBranchList_eq_ok` — what maps and branches are read from;
* `Schema.corePart?_rel_of_member` — a keyword that is read equally from two objects says the same in
  their cores;
* `Schema.reflected` — **decoding reflects cores**, in all places for subschemas;
* `Schema.core_sameUpTo_of_equalUpTo` — **decoding conflates nothing else**.
-/

import SchemaAudit.Proofs.CoreForm
import SchemaAudit.Proofs.MemberOrder

set_option relaxedAutoImplicit false
set_option autoImplicit false

namespace SchemaAudit

open Json (Value Members)

open Json.Value (SameUpTo)

/-! ### Equal schemas -/

/-- Two schemas are equal: the values under `const` and `enum` may differ in the order of members
and in how equal numbers are written. -/
inductive Schema.EqualUpTo (numbers : Json.Number → Json.Number → Prop) : Schema → Schema → Prop
  | boolean (value : Bool) : EqualUpTo numbers (.boolean value) (.boolean value)
  | object {k k' : Keywords Schema} (type : k.type = k'.type)
      (properties : List.Forall₂ (NameMap.EntryRel (Option.Rel (EqualUpTo numbers))) k.properties
        k'.properties)
      (required : k.required = k'.required)
      (items : Option.Rel (EqualUpTo numbers) k.items k'.items)
      (additional : Option.Rel (EqualUpTo numbers) k.additional k'.additional)
      (anyOf : List.Forall₂ (Option.Rel (EqualUpTo numbers)) k.anyOf k'.anyOf)
      (oneOf : List.Forall₂ (Option.Rel (EqualUpTo numbers)) k.oneOf k'.oneOf)
      (allOf : List.Forall₂ (Option.Rel (EqualUpTo numbers)) k.allOf k'.allOf)
      (const : Option.Rel (SameUpTo numbers) k.const k'.const)
      (enum : List.Forall₂ (SameUpTo numbers) k.enum k'.enum) (ref : k.ref = k'.ref) :
      EqualUpTo numbers (.object k) (.object k')

/-! ### What a keyword is read from -/

/-- The value that writes a `type`. -/
def TypeDecl.value : TypeDecl → Value
  | .single name => .string name
  | .list names => .array (names.map .string)

/-- A keyword is read as absent from just those values that are silent in its role. -/
def Role.Reads {α : Type} (role : Role) (absent : α)
    (decode : Pointer → Value → Except Fault α) : Prop :=
  ∀ p v a, v.KeysDistinct → decode p v = .ok a → (role.isSilent v = true ↔ a = absent)

/-- A slot is read from a value, at some position. -/
def Schema.SlotOf (value : Value) (slot : Slot) : Prop := ∃ p, Schema.decodeSlot p value = .ok slot

namespace Schema

theorem decodeStrings_eq_ok {p : Pointer} {index : Nat} {items : List Value} {texts : List String}
    (h : decodeStrings p index items = .ok texts) : items = texts.map .string := by
  induction items generalizing index texts with
  | nil =>
      cases h
      rfl
  | cons item rest ih =>
      cases item with
      | string text =>
          obtain ⟨later, hlater, h⟩ := bind_eq_ok_iff.1 h
          cases h
          rw [List.map_cons, ← ih hlater]
      | _ => cases h

theorem decodeStringList_eq_ok {p : Pointer} {v : Value} {texts : List String}
    (h : decodeStringList p v = .ok texts) : v = .array (texts.map .string) := by
  cases v with
  | array items => exact congrArg Value.array (decodeStrings_eq_ok h)
  | _ => cases h

theorem decodeType_eq_ok {p : Pointer} {v : Value} {type : TypeDecl}
    (h : decodeType p v = .ok type) : v = type.value := by
  cases v with
  | string name =>
      cases h
      rfl
  | array items =>
      obtain ⟨names, hnames, h⟩ := bind_eq_ok_iff.1 h
      cases h
      exact congrArg Value.array (decodeStrings_eq_ok hnames)
  | _ => cases h

theorem decodeEnum_eq_ok {p : Pointer} {v : Value} {items : List Value}
    (h : decodeEnum p v = .ok items) : v = .array items := by
  cases v with
  | array items =>
      cases h
      rfl
  | _ => cases h

theorem decodeRef_eq_ok {p : Pointer} {v : Value} {target : String}
    (h : decodeRef p v = .ok target) : v = .string target := by
  cases v with
  | string target =>
      cases h
      rfl
  | _ => cases h

theorem decodeBranchList_eq_ok {p : Pointer} {v : Value} {slots : List Slot}
    (h : decodeBranchList p v = .ok slots) :
    ∃ items, v = .array items ∧ List.Forall₂ SlotOf items slots := by
  have build : ∀ {items : List Value} {index : Nat} {slots : List Slot},
      decodeBranches p index items = .ok slots → List.Forall₂ SlotOf items slots := by
    intro items
    induction items with
    | nil =>
        rintro _ _ ⟨⟩
        exact .nil
    | cons item rest ih =>
        intro index slots h
        obtain ⟨slot, hslot, h⟩ := bind_eq_ok_iff.1 h
        obtain ⟨later, hlater, h⟩ := bind_eq_ok_iff.1 h
        cases h
        exact .cons ⟨_, hslot⟩ (ih hlater)
  cases v with
  | array items => exact ⟨items, rfl, build h⟩
  | _ => cases h

/-- A map holds under each name what is read from the member under this name. -/
theorem decodeMap_eq_ok {p : Pointer} {v : Value} {m : NameMap Slot} (keys : v.KeysDistinct)
    (h : decodeMap p v = .ok m) :
    ∃ members, v = .object members ∧
      ∀ name, Option.Rel SlotOf (List.lookup name members) (List.lookup name m) := by
  have build : ∀ {members : Members} {entries : List (String × Slot)},
      decodeEntries p members = .ok entries →
        List.Forall₂ (NameMap.EntryRel SlotOf) members entries := by
    intro members
    induction members with
    | nil =>
        rintro _ ⟨⟩
        exact .nil
    | cons member rest ih =>
        intro entries h
        obtain ⟨slot, hslot, h⟩ := bind_eq_ok_iff.1 h
        obtain ⟨later, hlater, h⟩ := bind_eq_ok_iff.1 h
        cases h
        exact .cons (.intro _ ⟨_, hslot⟩) (ih hlater)
  cases v with
  | object members =>
      obtain ⟨names, -⟩ := Value.keysDistinct_object_iff.1 keys
      obtain ⟨entries, hentries, h⟩ := bind_eq_ok_iff.1 h
      cases h
      refine ⟨members, rfl, fun name => ?_⟩
      have names' : (entries.map Prod.fst).Nodup := names_of_decodeEntries hentries ▸ names
      rw [← Record.lookup_eq_of_perm names' (NameMap.perm_ofList names').symm name]
      exact Record.lookup_rel_of_forall₂ (build hentries) fun _ _ _ => id
  | _ => cases h

/-! ### What is silent is read as absent -/

theorem reads_typeDecl : Role.typeDecl.Reads none fun p v => some <$> decodeType p v := by
  intro p v a _ h
  obtain ⟨type, -, h⟩ := bind_eq_ok_iff.1 h
  cases h
  simp [Role.isSilent]

theorem reads_names : Role.names.Reads [] decodeStringList := by
  intro p v texts _ h
  obtain rfl := decodeStringList_eq_ok h
  cases texts <;> simp [Role.isSilent]

theorem reads_values : Role.values.Reads [] decodeEnum := by
  intro p v items _ h
  obtain rfl := decodeEnum_eq_ok h
  cases items <;> simp [Role.isSilent]

theorem reads_name : Role.name.Reads "" decodeRef := by
  intro p v target _ h
  obtain rfl := decodeRef_eq_ok h
  simp [Role.isSilent]

theorem reads_branches : Role.branches.Reads [] decodeBranchList := by
  intro p v slots _ h
  obtain ⟨items, rfl, related⟩ := decodeBranchList_eq_ok h
  cases related <;> simp [Role.isSilent]

theorem reads_map : Role.map.Reads [] decodeMap := by
  intro p v m keys h
  obtain ⟨members, rfl, found⟩ := decodeMap_eq_ok keys h
  cases members with
  | nil =>
      cases m with
      | nil => simp [Role.isSilent]
      | cons entry rest =>
          have hentry := found entry.1
          rw [List.lookup_cons_self] at hentry
          cases hentry
  | cons member rest =>
      cases m with
      | nil =>
          have hmember := found member.1
          rw [List.lookup_cons_self] at hmember
          cases hmember
      | cons entry rest => simp [Role.isSilent]

theorem reads_schema : Role.schema.Reads none decodeSlot := by
  intro p v slot _ h
  obtain ⟨rfl, rfl⟩ | ⟨value, rfl, rfl⟩ | ⟨members, k, rfl, rfl, -⟩ := decodeSlot_eq_ok h <;>
    simp [Role.isSilent]

theorem reads_itemSchema : Role.itemSchema.Reads none decodeItems := by
  intro p v slot _ h
  rw [decodeItems] at h
  split at h
  · cases v with
    | array items =>
        cases h
        simp [Role.isSilent]
    | _ => simp_all [Value.kind]
  · obtain ⟨rfl, rfl⟩ | ⟨value, rfl, rfl⟩ | ⟨members, k, rfl, rfl, -⟩ := decodeSlot_eq_ok h <;>
      simp [Role.isSilent]

/-! ### Decoding reflects cores -/

variable {numbers : Json.Number → Json.Number → Prop}

/-- A keyword that reads equally from two objects says the same in their cores, if values that are
not silent and that it reads equally have the same core. -/
theorem corePart?_rel_of_member {α : Type} {key : String} {role : Role} {absent a a' : α}
    {decode : Pointer → Value → Except Fault α} {p q : Pointer} {members members' : Members}
    (hkey : key ≠ "const") (hrole : List.lookup key roleKeywords = some role)
    (reads : role.Reads absent decode) (values : ∀ m ∈ members, m.2.KeysDistinct)
    (values' : ∀ m ∈ members', m.2.KeysDistinct) (h : member key absent decode p members = .ok a)
    (h' : member key absent decode q members' = .ok a') (absent_iff : a = absent ↔ a' = absent)
    (same : ∀ v w, (key, v) ∈ members → w.KeysDistinct → a ≠ absent →
      decode (p ++ [key]) v = .ok a → decode (q ++ [key]) w = .ok a' →
        SameUpTo numbers (role.core v) (role.core w)) :
    Option.Rel (SameUpTo numbers) ((List.lookup key members).bind (corePart? key))
      ((List.lookup key members').bind (corePart? key)) := by
  have silent : ∀ {p v b}, v.KeysDistinct → decode p v = .ok b → b = absent →
      corePart? key v = none := by
    intro p v b keys hv hb
    simp [corePart?_eq hkey hrole, (reads p v b keys hv).2 hb, Option.guard]
  rw [member] at h h'
  cases hv : List.lookup key members with
  | none =>
      rw [hv] at h
      cases h
      cases hw : List.lookup key members' with
      | none => exact .none
      | some w =>
          rw [hw] at h'
          rw [Option.bind_some,
            silent (values' _ (Record.mem_of_lookup_eq_some hw)) h' (absent_iff.1 rfl)]
          exact .none
  | some v =>
      have hmem := Record.mem_of_lookup_eq_some hv
      rw [hv] at h
      rw [Option.bind_some]
      cases hw : List.lookup key members' with
      | none =>
          rw [hw] at h'
          cases h'
          rw [silent (values _ hmem) h (absent_iff.2 rfl)]
          exact .none
      | some w =>
          have keys := values' _ (Record.mem_of_lookup_eq_some hw)
          rw [hw] at h'
          rw [Option.bind_some]
          by_cases ha : a = absent
          · rw [silent (values _ hmem) h ha, silent keys h' (absent_iff.1 ha)]
            exact .none
          · have hv := mt (reads _ _ _ (values _ hmem) h).1 ha
            have hw := mt (reads _ _ _ keys h').1 (mt absent_iff.2 ha)
            simp only [corePart?_eq hkey hrole, Option.guard, hv, hw, Bool.not_false, if_true,
              Option.map_some]
            exact .some (same v w hmem keys ha h h')

theorem sameUpTo_texts (texts : List String) :
    SameUpTo numbers (.array (texts.map .string)) (.array (texts.map .string)) :=
  .array (List.forall₂_map_left_iff.2 (List.forall₂_map_right_iff.2
    (List.forall₂_same.2 fun text _ => .string text)))

theorem sameUpTo_value (type : TypeDecl) : SameUpTo numbers type.value type.value := by
  cases type with
  | single name => exact .string name
  | list names => exact sameUpTo_texts names

/-- In all places for subschemas, what is read from a value reflects its core. -/
structure Reflected (numbers : Json.Number → Json.Number → Prop) (v : Value) : Prop where
  slot : ∀ {p q w a b}, w.KeysDistinct → decodeSlot p v = .ok a → decodeSlot q w = .ok b →
    Option.Rel (EqualUpTo numbers) a b → SameUpTo numbers v.core w.core
  map : ∀ {p q w m m'}, w.KeysDistinct → decodeMap p v = .ok m → decodeMap q w = .ok m' →
    List.Forall₂ (NameMap.EntryRel (Option.Rel (EqualUpTo numbers))) m m' →
      SameUpTo numbers (Role.map.core v) (Role.map.core w)
  branches : ∀ {p q w l l'}, w.KeysDistinct → decodeBranchList p v = .ok l →
    decodeBranchList q w = .ok l' → List.Forall₂ (Option.Rel (EqualUpTo numbers)) l l' →
      SameUpTo numbers (Role.branches.core v) (Role.branches.core w)

/-- Equal values of `type` are read from the same values. -/
theorem core_sameUpTo_of_decodeType {p q : Pointer} {v w : Value} {type : Option TypeDecl}
    (h : some <$> decodeType p v = .ok type) (h' : some <$> decodeType q w = .ok type) :
    SameUpTo numbers (Role.typeDecl.core v) (Role.typeDecl.core w) := by
  obtain ⟨t, ht, heq⟩ := bind_eq_ok_iff.1 h
  obtain ⟨t', ht', heq'⟩ := bind_eq_ok_iff.1 h'
  cases heq
  cases heq'
  rw [core_of_mem (by simp), core_of_mem (by simp), decodeType_eq_ok ht, decodeType_eq_ok ht']
  exact sameUpTo_value t

theorem Reflected.items {v w : Value} (h : Reflected numbers v) (keys : w.KeysDistinct)
    {p q : Pointer} {a b : Slot} (ha : a ≠ none) (hv : decodeItems p v = .ok a)
    (hw : decodeItems q w = .ok b) (equal : Option.Rel (EqualUpTo numbers) a b) :
    SameUpTo numbers (Role.itemSchema.core v) (Role.itemSchema.core w) := by
  rw [core_itemSchema, core_itemSchema]
  rw [decodeItems] at hv hw
  split at hv
  · cases hv
    exact absurd rfl ha
  · split at hw
    · cases hw
      exact absurd ((eq_none_iff_of_rel equal).2 rfl) ha
    · exact h.slot keys hv hw equal

section Objects

variable {p q : Pointer} {members members' : Members} {k k' : Keywords Schema}

/-- Objects from which equal keywords are read have the same core. -/
theorem core_sameUpTo_of_readFrom (keys : (Value.object members).KeysDistinct)
    (keys' : (Value.object members').KeysDistinct) (ih : ∀ m ∈ members, Reflected numbers m.2)
    (h : ReadFrom p members k) (h' : ReadFrom q members' k')
    (equal : EqualUpTo numbers (.object k) (.object k')) :
    SameUpTo numbers (Value.object members).core (Value.object members').core := by
  obtain ⟨names, values⟩ := Value.keysDistinct_object_iff.1 keys
  obtain ⟨names', values'⟩ := Value.keysDistinct_object_iff.1 keys'
  have ofBranches : ∀ {key : String} {l l' : List Slot}, key ≠ "const" →
      List.lookup key roleKeywords = some .branches →
      member key [] decodeBranchList p members = .ok l →
      member key [] decodeBranchList q members' = .ok l' →
      List.Forall₂ (Option.Rel (EqualUpTo numbers)) l l' →
      Option.Rel (SameUpTo numbers) ((List.lookup key members).bind (corePart? key))
        ((List.lookup key members').bind (corePart? key)) := by
    intro key l l' hkey hrole hl hl' related
    refine corePart?_rel_of_member hkey hrole reads_branches values values' hl hl'
      (eq_nil_iff_of_forall₂ related) fun v w hv hw _ hl hl' => ?_
    exact (ih _ hv).branches hw hl hl' related
  rw [sameUpTo_core_object_iff names names']
  intro key
  cases equal with
  | object type properties required items additional anyOf oneOf allOf const enum ref =>
      by_cases hkey : key ∈ "const" :: roleKeywords.map Prod.fst
      · simp only [roleKeywords, List.map_cons, List.map_nil, List.mem_cons, List.not_mem_nil,
          or_false] at hkey
        -- keyword after keyword, in the order of `roleKeywords`
        rcases hkey with rfl | rfl | rfl | rfl | rfl | rfl | rfl | rfl | rfl | rfl | rfl
        · have whole : corePart? "const" = some := funext fun _ => rfl
          simpa only [whole, Option.bind_fun_some, h.const, h'.const] using const
        · refine corePart?_rel_of_member (by decide) rfl reads_typeDecl values values' h.type
            h'.type (by rw [type]) fun v w _ _ _ hv hw => ?_
          exact core_sameUpTo_of_decodeType hv (type ▸ hw)
        · refine corePart?_rel_of_member (by decide) rfl reads_map values values' h.properties
            h'.properties (eq_nil_iff_of_forall₂ properties) fun v w hv hw _ hm hm' => ?_
          exact (ih _ hv).map hw hm hm' properties
        · refine corePart?_rel_of_member (by decide) rfl reads_names values values' h.required
            h'.required (by rw [required]) fun v w _ _ _ hv hw => ?_
          rw [core_of_mem (by simp), core_of_mem (by simp), decodeStringList_eq_ok hv,
            decodeStringList_eq_ok hw, required]
          exact sameUpTo_texts _
        · refine corePart?_rel_of_member (by decide) rfl reads_itemSchema values values' h.items
            h'.items (eq_none_iff_of_rel items) fun v w hv hw hsome hl hl' => ?_
          exact (ih _ hv).items hw hsome hl hl' items
        · refine corePart?_rel_of_member (by decide) rfl reads_schema values values' h.additional
            h'.additional (eq_none_iff_of_rel additional) fun v w hv hw _ hl hl' => ?_
          exact (ih _ hv).slot hw hl hl' additional
        · exact ofBranches (by decide) rfl h.anyOf h'.anyOf anyOf
        · exact ofBranches (by decide) rfl h.oneOf h'.oneOf oneOf
        · exact ofBranches (by decide) rfl h.allOf h'.allOf allOf
        · refine corePart?_rel_of_member (by decide) rfl reads_values values values' h.enum
            h'.enum (eq_nil_iff_of_forall₂ enum) fun v w _ _ _ hv hw => ?_
          rw [core_of_mem (by simp), core_of_mem (by simp), decodeEnum_eq_ok hv,
            decodeEnum_eq_ok hw]
          exact .array enum
        · refine corePart?_rel_of_member (by decide) rfl reads_name values values' h.ref h'.ref
            (by rw [ref]) fun v w _ _ _ hv hw => ?_
          rw [core_of_mem (by simp), core_of_mem (by simp), decodeRef_eq_ok hv,
            decodeRef_eq_ok hw, ref]
          exact .string _
      · have dropped : corePart? key = fun _ => none := funext (corePart?_eq_none hkey)
        rw [dropped, Option.bind_fun_none, Option.bind_fun_none]
        exact .none

/-- Objects from which equal maps are read have the same core. -/
theorem core_sameUpTo_of_decodeMap {w : Value} {m m' : NameMap Slot}
    (keys : (Value.object members).KeysDistinct) (keys' : w.KeysDistinct)
    (ih : ∀ m ∈ members, Reflected numbers m.2) (h : decodeMap p (.object members) = .ok m)
    (h' : decodeMap q w = .ok m')
    (equal : List.Forall₂ (NameMap.EntryRel (Option.Rel (EqualUpTo numbers))) m m') :
    SameUpTo numbers (Role.map.core (.object members)) (Role.map.core w) := by
  obtain ⟨_, ⟨⟩, found⟩ := decodeMap_eq_ok keys h
  obtain ⟨members', rfl, found'⟩ := decodeMap_eq_ok keys' h'
  obtain ⟨names', values'⟩ := Value.keysDistinct_object_iff.1 keys'
  rw [sameUpTo_core_map_iff (Value.keysDistinct_object_iff.1 keys).1 names']
  intro name
  have slots : Option.Rel (Option.Rel (EqualUpTo numbers)) (List.lookup name m)
      (List.lookup name m') := Record.lookup_rel_of_forall₂ equal fun _ _ _ => id
  refine rel_of_rel (found name) slots (found' name) ?_
  rintro v hv w hw slot slot' ⟨p, hslot⟩ hequal ⟨q, hslot'⟩
  have hkeys := values' _ (Record.mem_of_lookup_eq_some hw)
  exact (ih _ (Record.mem_of_lookup_eq_some hv)).slot hkeys hslot hslot' hequal

/-- Arrays from which equal branches are read have the same core. -/
theorem core_sameUpTo_of_decodeBranchList {items : List Value} {w : Value} {l l' : List Slot}
    (keys' : w.KeysDistinct) (ih : ∀ item ∈ items, Reflected numbers item)
    (h : decodeBranchList p (.array items) = .ok l) (h' : decodeBranchList q w = .ok l')
    (equal : List.Forall₂ (Option.Rel (EqualUpTo numbers)) l l') :
    SameUpTo numbers (Role.branches.core (.array items)) (Role.branches.core w) := by
  obtain ⟨_, ⟨⟩, related⟩ := decodeBranchList_eq_ok h
  obtain ⟨items', rfl, related'⟩ := decodeBranchList_eq_ok h'
  have values' := Value.keysDistinct_array_iff.1 keys'
  rw [sameUpTo_core_branches_iff]
  clear h h' keys'
  induction equal generalizing items items' with
  | nil =>
      cases related
      cases related'
      exact .nil
  | cons hequal _ later =>
      cases related with
      | cons hslot related =>
          cases related' with
          | cons hslot' related' =>
              obtain ⟨hhead, ih⟩ := List.forall_mem_cons.1 ih
              obtain ⟨hkeys, values'⟩ := List.forall_mem_cons.1 values'
              obtain ⟨p, hslot⟩ := hslot
              obtain ⟨q, hslot'⟩ := hslot'
              exact .cons (hhead.slot hkeys hslot hslot' hequal)
                (later ih related _ related' values')

end Objects

/-- What is read from a value reflects its core if this is so for its parts. -/
theorem reflected_of_parts {v : Value}
    (hobject : ∀ members, v = .object members →
      v.KeysDistinct ∧ ∀ m ∈ members, Reflected numbers m.2)
    (harray : ∀ items, v = .array items → ∀ item ∈ items, Reflected numbers item) :
    Reflected numbers v where
  slot keys' h h' equal := by
    obtain ⟨rfl, rfl⟩ | ⟨value, rfl, rfl⟩ | ⟨members, k, rfl, rfl, hread⟩ := decodeSlot_eq_ok h <;>
      obtain ⟨rfl, rfl⟩ | ⟨value', rfl, rfl⟩ | ⟨members', k', rfl, rfl, hread'⟩ :=
        decodeSlot_eq_ok h' <;>
      cases equal
    · exact .null
    · rename_i hequal
      cases hequal
      exact .bool value
    · rename_i hequal
      cases hequal
    · rename_i hequal
      cases hequal
    · rename_i hequal
      obtain ⟨keys, ih⟩ := hobject members rfl
      exact core_sameUpTo_of_readFrom keys keys' ih hread hread' hequal
  map keys' h h' equal := by
    cases v with
    | object members =>
        obtain ⟨keys, ih⟩ := hobject members rfl
        exact core_sameUpTo_of_decodeMap keys keys' ih h h' equal
    | _ => cases h
  branches keys' h h' equal := by
    cases v with
    | array items => exact core_sameUpTo_of_decodeBranchList keys' (harray items rfl) h h' equal
    | _ => cases h

/-- **Decoding reflects cores**, in all places for subschemas. -/
theorem reflected {v : Value} (keys : v.KeysDistinct) : Reflected numbers v := by
  induction keys with
  | array _ ih =>
      refine reflected_of_parts (by simp) ?_
      rintro items ⟨⟩
      exact ih
  | object names values ih =>
      refine reflected_of_parts ?_ (by simp)
      rintro members ⟨⟩
      exact ⟨.object names values, ih⟩
  | _ => exact reflected_of_parts (by simp) (by simp)

end Schema

/-- **Decoding conflates nothing but what cores leave out.**  If two objects are decoded to equal
schemas, their cores are the same up to the order of members.  Hence wherever a subschema stands in
one of them, one that looks the same stands in the other one. -/
theorem Schema.core_sameUpTo_of_equalUpTo {numbers : Json.Number → Json.Number → Prop}
    {members members' : Members} {s t : Schema} (keys : (Value.object members).KeysDistinct)
    (keys' : (Value.object members').KeysDistinct) (h : ofValue? (.object members) = .ok s)
    (h' : ofValue? (.object members') = .ok t) (equal : s.EqualUpTo numbers t) :
    SameUpTo numbers (Value.object members).core (Value.object members').core ∧
      ∀ steps, Option.Rel (Value.Agrees numbers) ((Value.object members).schemaAt? steps)
        ((Value.object members').schemaAt? steps) := by
  have object : ∀ {members : Members} {s : Schema}, ofValue? (.object members) = .ok s →
      decodeSlot [] (.object members) = .ok (some s) := by
    intro members s h
    obtain ⟨slot, hslot, h⟩ := bind_eq_ok_iff.1 h
    obtain ⟨⟨⟩, -⟩ | ⟨_, ⟨⟩, -⟩ | ⟨_, k, ⟨⟩, rfl, -⟩ := decodeSlot_eq_ok hslot
    cases h
    exact hslot
  have same : SameUpTo numbers (Value.object members).core (Value.object members').core :=
    (reflected keys).slot keys' (object h) (object h') (.some equal)
  have cores : SameCore numbers .schema (.object members) (.object members') := ⟨keys, keys', same⟩
  exact ⟨same, fun steps => rel_imp (cores.schemaAt?_rel steps) fun _ _ _ _ h => h.agrees⟩

/-- Two objects that are decoded to equal schemas: members are reordered, and what is silent or not
recognised stands in one of them only. -/
def spelling : Bool → Members
  | false => [
      ("title", .string "form"),
      ("items", .null),
      ("const", .object [("a", .number (.int 1)), ("b", .null)]),
      ("properties", .object [
        ("name", .null),
        ("kind", .object [("$ref", .string ""), ("additionalProperties", .bool true)])])]
  | true => [
      ("properties", .object [
        ("kind", .object [("additionalProperties", .bool true), ("required", .array [])]),
        ("name", .null)]),
      ("const", .object [("b", .null), ("a", .number (.int 1))]),
      ("additionalProperties", .null)]

/-- The cores of both objects are the same, and where one has a `null` or an open schema, so has the
other. -/
theorem core_sameUpTo_spelling :
    ∃ s t, Schema.ofValue? (.object (spelling false)) = .ok s ∧
      Schema.ofValue? (.object (spelling true)) = .ok t ∧ s.EqualUpTo Eq t ∧
      SameUpTo Eq (Value.object (spelling false)).core (Value.object (spelling true)).core ∧
      ∀ name, Option.Rel (Value.Agrees Eq)
        ((Value.object (spelling false)).schemaAt? [.property name])
        ((Value.object (spelling true)).schemaAt? [.property name]) := by
  have keys : ∀ second, (Value.object (spelling second)).KeysDistinct := by
    intro second
    cases second <;> simp [spelling]
  have opened : Schema.EqualUpTo Eq (.object { additional := some (.boolean true) })
      (.object { additional := some (.boolean true) }) :=
    .object rfl .nil rfl .none (.some (.boolean true)) .nil .nil .nil .none .nil rfl
  have const : SameUpTo Eq (.object [("a", .number (.int 1)), ("b", .null)])
      (.object [("b", .null), ("a", .number (.int 1))]) :=
    .object (.swap _ _ _) (.cons (.intro _ .null) (.cons (.intro _ (.number rfl)) .nil))
  have equal : Schema.EqualUpTo Eq
      (.object {
        properties := [("kind", some (.object { additional := some (.boolean true) })),
          ("name", none)],
        const := some (.object [("a", .number (.int 1)), ("b", .null)]) })
      (.object {
        properties := [("kind", some (.object { additional := some (.boolean true) })),
          ("name", none)],
        const := some (.object [("b", .null), ("a", .number (.int 1))]) }) :=
    .object rfl (.cons (.intro _ (.some opened)) (.cons (.intro _ .none) .nil)) rfl .none .none
      .nil .nil .nil (.some const) .nil rfl
  have result := Schema.core_sameUpTo_of_equalUpTo (keys false) (keys true) rfl rfl equal
  exact ⟨_, _, rfl, rfl, equal, result.1, fun name => result.2 [.property name]⟩

end SchemaAudit
