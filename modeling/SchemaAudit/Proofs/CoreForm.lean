/-
**The core of a schema.**

A schema may say the same in many ways: with members that are not recognised, with a `null` under
`items` or an empty `required`, and with its members in any order.  The core of a schema drops the
members that are not recognised and the few that say nothing, in the schema and in all subschemas.
Schemas with the same core, up to the order of members, hold subschemas at the same places, and
these look the same in each of the ways in which presence matters.

Two numbers that are written differently may be equal.  Which ones are is left open here.

Main definitions:

* `Value.SameUpTo` — **the same values**, up to the order of members and up to equal numbers;
* `Role.isSilent`, `Role.core`, `Value.core` — values that say nothing, and the core of a value;
* `Value.schemaAt?` — the subschema to which some steps lead;
* `Value.Agrees` — **two subschemas look the same**.

Main results:

* `Record.reordering_of_lookup_rel` — records with related values under each name are related;
* `sameUpTo_core_object_iff` — objects have the same core if what they say under each key has;
* `SameCore.schemaAt?_rel`, `SameCore.agrees` — **the same cores have the same subschemas**, at
  every depth, and what has the same core looks the same.
-/

import SchemaAudit.Audit.Place
import SchemaAudit.Proofs.BranchOrder
import SchemaAudit.Proofs.Faults

set_option relaxedAutoImplicit false
set_option autoImplicit false

namespace SchemaAudit

open Json (Value Members)

/-! ### Equal values -/

/-- Two values are the same up to the order of members, at every depth, and up to equal numbers. -/
inductive Json.Value.SameUpTo (numbers : Json.Number → Json.Number → Prop) : Value → Value → Prop
  | null : SameUpTo numbers .null .null
  | bool (value : Bool) : SameUpTo numbers (.bool value) (.bool value)
  | number {value value' : Json.Number} (equal : numbers value value') :
      SameUpTo numbers (.number value) (.number value')
  | string (text : String) : SameUpTo numbers (.string text) (.string text)
  | array {items items' : List Value} (related : List.Forall₂ (SameUpTo numbers) items items') :
      SameUpTo numbers (.array items) (.array items')
  | object {members mid members' : Members} (perm : members.Perm mid)
      (related : List.Forall₂ (NameMap.EntryRel (SameUpTo numbers)) mid members') :
      SameUpTo numbers (.object members) (.object members')

open Json.Value (SameUpTo)

/-! ### The core of a value -/

/-- A value that says as little as one that is not there. -/
def Role.isSilent : Role → Value → Bool
  | .schema, .null | .itemSchema, .null | .itemSchema, .array _ => true
  | .map, .object [] => true
  | .names, .array [] | .values, .array [] | .branches, .array [] => true
  | .name, .string text => text = ""
  | _, _ => false

mutual

/-- The core of a value in a role: of schemas those members that are recognised and not silent, and
of these the core. -/
def Role.core : Role → Value → Value
  | .schema, .object members | .itemSchema, .object members => .object (coreMembers members)
  | .map, .object entries => .object (coreEntries entries)
  | .branches, .array items => .array (coreItems items)
  | _, value => value

/-- The cores of the members of a schema. A value of `const` may be anything. -/
def coreMembers : List (String × Value) → List (String × Value)
  | [] => []
  | (key, value) :: rest =>
    if key = "const" then (key, value) :: coreMembers rest
    else
      match List.lookup key roleKeywords with
      | none => coreMembers rest
      | some role =>
        if role.isSilent value then coreMembers rest
        else (key, role.core value) :: coreMembers rest

/-- The cores of the entries of a map. -/
def coreEntries : List (String × Value) → List (String × Value)
  | [] => []
  | (name, value) :: rest => (name, Role.schema.core value) :: coreEntries rest

/-- The cores of branches. -/
def coreItems : List Value → List Value
  | [] => []
  | item :: rest => Role.schema.core item :: coreItems rest

end

/-- **The core of a schema**, which decoding does not forget. -/
def Json.Value.core (value : Value) : Value := Role.schema.core value

/-- What the core of a schema keeps of a member, if it keeps it. -/
def corePart? (key : String) (value : Value) : Option Value :=
  if key = "const" then some value
  else (List.lookup key roleKeywords).bind fun role =>
    (Option.guard (fun part => !role.isSilent part) value).map role.core

theorem corePart?_eq {key : String} {role : Role} (hkey : key ≠ "const")
    (hrole : List.lookup key roleKeywords = some role) (value : Value) :
    corePart? key value =
      (Option.guard (fun part => !role.isSilent part) value).map role.core := by
  rw [corePart?, if_neg hkey, hrole, Option.bind_some]

theorem coreEntries_eq (entries : List (String × Value)) :
    coreEntries entries = entries.map fun entry => (entry.1, entry.2.core) := by
  induction entries with
  | nil => rfl
  | cons entry rest ih => rw [List.map_cons, ← ih]; rfl

theorem coreItems_eq (items : List Value) : coreItems items = items.map Value.core := by
  induction items with
  | nil => rfl
  | cons item rest ih => rw [List.map_cons, ← ih]; rfl

theorem coreMembers_eq (members : Members) :
    coreMembers members = members.filterMap fun m => (corePart? m.1 m.2).map (m.1, ·) := by
  induction members with
  | nil => rfl
  | cons m rest ih =>
      obtain ⟨key, value⟩ := m
      rw [coreMembers, List.filterMap_cons, corePart?, ih]
      split
      · rfl
      · cases List.lookup key roleKeywords with
        | none => rfl
        | some role => cases hsilent : role.isSilent value <;> simp [hsilent, Option.guard]

/-- Members that are not recognised are dropped. -/
theorem corePart?_eq_none {key : String} (h : key ∉ "const" :: roleKeywords.map Prod.fst)
    (value : Value) : corePart? key value = none := by
  obtain ⟨hconst, hkey⟩ := not_or.1 (mt List.mem_cons.2 h)
  have hrole : List.lookup key roleKeywords = none := by
    refine List.lookup_eq_none_iff.2 fun keyword hkeyword => ?_
    simpa using fun heq : key = keyword.1 => hkey (heq ▸ List.mem_map_of_mem hkeyword)
  rw [corePart?, if_neg hconst, hrole, Option.bind_none]

/-- Values in which no schemas stand are their own core. -/
theorem core_of_mem {role : Role} (h : role ∈ [.typeDecl, .names, .values, .name]) (value : Value) :
    role.core value = value := by
  simp only [List.mem_cons, List.not_mem_nil, or_false] at h
  rcases h with rfl | rfl | rfl | rfl <;> cases value <;> rfl

theorem core_itemSchema (value : Value) : Role.itemSchema.core value = value.core := by
  cases value <;> rfl

theorem kind_core (role : Role) (value : Value) : (role.core value).kind = value.kind := by
  unfold Role.core
  split <;> rfl

/-! ### Records whose entries are looked up -/

namespace Record

variable {α β : Type} {f : String → α → Option β} {r : Record α}

theorem names_filterMap_sublist (f : String → α → Option β) (r : Record α) :
    ((r.filterMap fun e => (f e.1 e.2).map (e.1, ·)).map Prod.fst).Sublist (r.map Prod.fst) := by
  induction r with
  | nil => exact .slnil
  | cons head rest ih =>
      rw [List.filterMap_cons, List.map_cons]
      cases f head.1 head.2 with
      | none => exact .cons _ ih
      | some value => exact .cons_cons _ ih

/-- With distinct names, what is made of each entry is found under its name. -/
theorem lookup_filterMap (h : (r.map Prod.fst).Nodup) (name : String) :
    List.lookup name (r.filterMap fun e => (f e.1 e.2).map (e.1, ·)) =
      (List.lookup name r).bind (f name) := by
  refine Option.ext fun value => ?_
  rw [lookup_eq_some_iff (h.sublist (names_filterMap_sublist f r)), List.mem_filterMap,
    Option.bind_eq_some_iff]
  constructor
  · rintro ⟨⟨key, v⟩, hv, hmap⟩
    obtain ⟨w, hw, ⟨⟩⟩ := Option.map_eq_some_iff.1 hmap
    exact ⟨v, (lookup_eq_some_iff h).2 hv, hw⟩
  · rintro ⟨v, hv, hf⟩
    exact ⟨(name, v), mem_of_lookup_eq_some hv, Option.map_eq_some_iff.2 ⟨value, hf, rfl⟩⟩

theorem lookup_map (f : α → β) (r : Record α) (name : String) :
    List.lookup name (r.map fun e => (e.1, f e.2)) = (List.lookup name r).map f := by
  induction r with
  | nil => rfl
  | cons head rest ih =>
      rw [List.map_cons, List.lookup_cons, List.lookup_cons, ih]
      split <;> rfl

/-- **Records with related values under each name are related, up to the order of their entries.** -/
theorem reordering_of_lookup_rel {R : α → β → Prop} {r' : Record β} (h : (r.map Prod.fst).Nodup)
    (h' : (r'.map Prod.fst).Nodup)
    (found : ∀ name, Option.Rel R (List.lookup name r) (List.lookup name r')) :
    Reordering (NameMap.EntryRel R) r r' := by
  -- the entries of the first record, in the order of the second one
  let mid := r'.filterMap fun e => (List.lookup e.1 r).map (e.1, ·)
  have related : List.Forall₂ (NameMap.EntryRel R) mid r' := by
    have value : ∀ e ∈ r', ∃ v, List.lookup e.1 r = some v ∧ R v e.2 := by
      intro e he
      have hfound := found e.1
      rw [(lookup_eq_some_iff h').2 he] at hfound
      generalize List.lookup e.1 r = first at hfound ⊢
      cases hfound with
      | some hv => exact ⟨_, rfl, hv⟩
    clear found h'
    induction r' with
    | nil => exact .nil
    | cons e rest ih =>
        obtain ⟨hhead, hrest⟩ := List.forall_mem_cons.1 value
        obtain ⟨v, hv, hve⟩ := hhead
        simp only [mid, List.filterMap_cons, hv, Option.map_some]
        exact .cons (.intro e.1 hve) (ih hrest)
  have names : mid.map Prod.fst = r'.map Prod.fst := NameMap.names_eq_of_rel related
  refine ⟨mid, ?_, related⟩
  refine (List.perm_ext_iff_of_nodup h.of_map (names ▸ h').of_map).2 fun ⟨name, v⟩ => ?_
  rw [← lookup_eq_some_iff h, List.mem_filterMap]
  constructor
  · intro hv
    have hfound := found name
    rw [hv] at hfound
    generalize hother : List.lookup name r' = other at hfound
    cases hfound with
    | some _ => exact ⟨_, mem_of_lookup_eq_some hother, by simp [hv]⟩
  · rintro ⟨e, -, hv⟩
    obtain ⟨w, hw, ⟨⟩⟩ := Option.map_eq_some_iff.1 hv
    exact hw

end Record

section Options

variable {α β γ δ : Type} {R : α → β → Prop} {S : γ → δ → Prop} {a : Option α} {b : Option β}

theorem rel_map_iff {f : α → γ} {g : β → δ} :
    Option.Rel S (a.map f) (b.map g) ↔ Option.Rel (fun x y => S (f x) (g y)) a b := by
  cases a <;> cases b <;> simp

theorem eq_none_iff_of_rel (h : Option.Rel R a b) : a = none ↔ b = none := by
  cases h <;> simp

/-- Values that are related to related values are related. -/
theorem rel_of_rel {ε : Type} {T : ε → δ → Prop} {Q : α → ε → Prop} {c : Option ε} {d : Option δ}
    {U : β → δ → Prop} (h : Option.Rel R a b) (mid : Option.Rel U b d) (h' : Option.Rel T c d)
    (hQ : ∀ x ∈ a, ∀ z ∈ c, ∀ y w, R x y → U y w → T z w → Q x z) : Option.Rel Q a c := by
  cases h with
  | none =>
      cases mid
      cases h'
      exact .none
  | some hxy =>
      cases mid with
      | some hyw =>
          cases h' with
          | some hzw => exact .some (hQ _ rfl _ rfl _ _ hxy hyw hzw)

theorem rel_imp {Q : α → β → Prop} (h : Option.Rel R a b)
    (hQ : ∀ x ∈ a, ∀ y ∈ b, R x y → Q x y) : Option.Rel Q a b := by
  cases h with
  | none => exact .none
  | some hxy => exact .some (hQ _ rfl _ rfl hxy)

theorem rel_bind {f : α → Option γ} {g : β → Option δ} (h : Option.Rel R a b)
    (hfg : ∀ x ∈ a, ∀ y ∈ b, R x y → Option.Rel S (f x) (g y)) :
    Option.Rel S (a.bind f) (b.bind g) := by
  cases h with
  | none => exact .none
  | some hxy => exact hfg _ rfl _ rfl hxy

end Options

/-! ### Values with the same core -/

section SameUpTo

variable {numbers : Json.Number → Json.Number → Prop} {members members' : Members}

theorem sameUpTo_array_iff {items items' : List Value} :
    SameUpTo numbers (.array items) (.array items') ↔
      List.Forall₂ (SameUpTo numbers) items items' := by
  refine ⟨fun h => ?_, .array⟩
  cases h with
  | array related => exact related

/-- Objects are the same if what they hold under each key is. -/
theorem sameUpTo_object_iff (names : (members.map Prod.fst).Nodup)
    (names' : (members'.map Prod.fst).Nodup) :
    SameUpTo numbers (.object members) (.object members') ↔
      ∀ key, Option.Rel (SameUpTo numbers) (List.lookup key members)
        (List.lookup key members') := by
  constructor
  · intro h key
    cases h with
    | object perm related => exact Record.lookup_rel names perm related fun _ _ _ => id
  · intro h
    obtain ⟨mid, perm, related⟩ := Record.reordering_of_lookup_rel names names' h
    exact .object perm related

theorem nodup_names_coreMembers (names : (members.map Prod.fst).Nodup) :
    ((coreMembers members).map Prod.fst).Nodup := by
  rw [coreMembers_eq]
  exact names.sublist (Record.names_filterMap_sublist corePart? members)

/-- **Objects have the same core if what they say under each key has the same core.** -/
theorem sameUpTo_core_object_iff (names : (members.map Prod.fst).Nodup)
    (names' : (members'.map Prod.fst).Nodup) :
    SameUpTo numbers (Value.object members).core (Value.object members').core ↔
      ∀ key, Option.Rel (SameUpTo numbers) ((List.lookup key members).bind (corePart? key))
        ((List.lookup key members').bind (corePart? key)) := by
  have found : ∀ {members : Members}, (members.map Prod.fst).Nodup → ∀ key,
      List.lookup key (coreMembers members) = (List.lookup key members).bind (corePart? key) := by
    intro members names key
    rw [coreMembers_eq, Record.lookup_filterMap names]
  rw [Value.core, Value.core, Role.core, Role.core, sameUpTo_object_iff
    (nodup_names_coreMembers names) (nodup_names_coreMembers names')]
  simp only [found names, found names']

theorem sameUpTo_core_map_iff (names : (members.map Prod.fst).Nodup)
    (names' : (members'.map Prod.fst).Nodup) :
    SameUpTo numbers (Role.map.core (.object members)) (Role.map.core (.object members')) ↔
      ∀ name, Option.Rel (fun v w => SameUpTo numbers v.core w.core) (List.lookup name members)
        (List.lookup name members') := by
  have keys : ∀ members : Members,
      (members.map fun entry => (entry.1, entry.2.core)).map Prod.fst = members.map Prod.fst :=
    fun members => List.map_map
  rw [Role.core, Role.core, coreEntries_eq, coreEntries_eq,
    sameUpTo_object_iff ((keys members).symm ▸ names) ((keys members').symm ▸ names')]
  simp only [Record.lookup_map, rel_map_iff]

theorem sameUpTo_core_branches_iff {items items' : List Value} :
    SameUpTo numbers (Role.branches.core (.array items)) (Role.branches.core (.array items')) ↔
      List.Forall₂ (fun v w => SameUpTo numbers v.core w.core) items items' := by
  rw [Role.core, Role.core, coreItems_eq, coreItems_eq, sameUpTo_array_iff,
    List.forall₂_map_left_iff, List.forall₂_map_right_iff]

end SameUpTo

/-! ### Every depth -/

/-- What an object says under a key, unless this is silent in its role. -/
def Json.Value.said? (key : String) (role : Role) (value : Value) : Option Value :=
  (value.member? key).filter fun part => !role.isSilent part

/-- An item of an array. -/
def Json.Value.item? (index : Nat) : Value → Option Value
  | .array items => items[index]?
  | _ => none

/-- **The subschema to which some steps lead**: a `null` among properties or branches, too. -/
def Json.Value.schemaAt? : Value → List Step → Option Value
  | value, [] => some value
  | value, .property name :: steps =>
    (value.said? "properties" .map).bind fun entries =>
      (entries.member? name).bind fun part => part.schemaAt? steps
  | value, .items :: steps =>
    (value.said? "items" .itemSchema).bind fun part => part.schemaAt? steps
  | value, .additional :: steps =>
    (value.said? "additionalProperties" .schema).bind fun part => part.schemaAt? steps
  | value, .composition keyword :: .branch index :: steps =>
    (value.said? keyword.keyword .branches).bind fun branches =>
      (branches.item? index).bind fun part => part.schemaAt? steps
  | _, _ => none

/-- How `additionalProperties` may stand in a schema. -/
inductive AdditionalForm where
  | absent
  | literal (value : Bool)
  /-- A schema that says nothing. -/
  | blank
  | schema

/-- The form of a core. -/
def AdditionalForm.ofCore : Value → AdditionalForm
  | .bool value => .literal value
  | .object [] => .blank
  | _ => .schema

/-- How `additionalProperties` stands in a schema. -/
def Json.Value.additionalForm (value : Value) : AdditionalForm :=
  ((value.said? "additionalProperties" .schema).map fun part => .ofCore part.core).getD .absent

/-- **Two subschemas look the same**: they have the same core, and both are `null`, both are literals
or both are objects, whose `additionalProperties` stand in the same form; under `type` and `const`
stands the same, if anything. -/
structure Json.Value.Agrees (numbers : Json.Number → Json.Number → Prop) (v w : Value) : Prop where
  core : SameUpTo numbers v.core w.core
  kind : v.kind = w.kind
  additional : v.additionalForm = w.additionalForm
  whole : ∀ key ∈ ["type", "const"],
    Option.Rel (SameUpTo numbers) (v.member? key) (w.member? key)

/-- Two values without repeated keys have the same core in a role. -/
structure SameCore (numbers : Json.Number → Json.Number → Prop) (role : Role) (v w : Value) :
    Prop where
  keys : v.KeysDistinct
  keys' : w.KeysDistinct
  same : SameUpTo numbers (role.core v) (role.core w)

theorem getElem?_rel_of_forall₂ {α β : Type} {R : α → β → Prop} {l : List α} {l' : List β}
    (h : List.Forall₂ R l l') (index : Nat) : Option.Rel R l[index]? l'[index]? := by
  induction h generalizing index with
  | nil => exact .none
  | cons hab _ ih =>
      cases index with
      | zero => exact .some hab
      | succ index => exact ih index

/-- Values of one kind are both objects, or none of them has members. -/
theorem Json.Value.objects_or_member?_eq_none {v w : Value} (kind : v.kind = w.kind) :
    (∃ members members', v = .object members ∧ w = .object members') ∨
      ∀ key, v.member? key = none ∧ w.member? key = none := by
  cases v with
  | object members =>
      cases w with
      | object members' => exact .inl ⟨members, members', rfl, rfl⟩
      | _ => cases kind
  | _ =>
      cases w with
      | object members' => cases kind
      | _ => exact .inr fun _ => ⟨rfl, rfl⟩

theorem Json.Value.SameUpTo.kind_eq {numbers : Json.Number → Json.Number → Prop} {v w : Value}
    (h : SameUpTo numbers v w) : v.kind = w.kind := by
  cases h <;> rfl

theorem AdditionalForm.ofCore_eq {numbers : Json.Number → Json.Number → Prop} {v w : Value}
    (h : SameUpTo numbers v w) : ofCore v = ofCore w := by
  cases h with
  | @object members mid members' perm related =>
      have length := perm.length_eq.trans related.length_eq
      cases members with
      | nil =>
          obtain rfl := List.eq_nil_of_length_eq_zero length.symm
          rfl
      | cons m rest =>
          cases members' with
          | nil => cases length
          | cons m' rest' => rfl
  | _ => rfl

namespace SameCore

variable {numbers : Json.Number → Json.Number → Prop} {role : Role} {v w : Value}

theorem kind_eq (h : SameCore numbers role v w) : v.kind = w.kind := by
  rw [← kind_core role v, ← kind_core role w]
  exact h.same.kind_eq

/-- What objects with the same core say under a key is the same in their cores. -/
theorem corePart?_rel (h : SameCore numbers .schema v w) (key : String) :
    Option.Rel (SameUpTo numbers) ((v.member? key).bind (corePart? key))
      ((w.member? key).bind (corePart? key)) := by
  obtain ⟨members, members', rfl, rfl⟩ | hnone := Value.objects_or_member?_eq_none h.kind_eq
  · exact (sameUpTo_core_object_iff (Value.keysDistinct_object_iff.1 h.keys).1
      (Value.keysDistinct_object_iff.1 h.keys').1).1 h.same key
  · rw [(hnone key).1, (hnone key).2]
    exact .none

theorem said?_rel (h : SameCore numbers .schema v w) {key : String} (hkey : key ≠ "const")
    (hrole : List.lookup key roleKeywords = some role) :
    Option.Rel (SameCore numbers role) (v.said? key role) (w.said? key role) := by
  have split : ∀ found : Option Value, found.bind (corePart? key) =
      (found.filter fun part => !role.isSilent part).map role.core := by
    intro found
    cases found with
    | none => rfl
    | some part =>
        rw [Option.bind_some, corePart?_eq hkey hrole]
        cases hsilent : role.isSilent part <;> simp [Option.guard, hsilent]
  have related := h.corePart?_rel key
  rw [split, split, rel_map_iff] at related
  refine rel_imp related fun part hpart part' hpart' same => ⟨?_, ?_, same⟩
  · exact h.keys.of_member? (Option.filter_eq_some_iff.1 hpart).1
  · exact h.keys'.of_member? (Option.filter_eq_some_iff.1 hpart').1

theorem member?_rel (h : SameCore numbers .map v w) (name : String) :
    Option.Rel (SameCore numbers .schema) (v.member? name) (w.member? name) := by
  obtain ⟨members, members', rfl, rfl⟩ | hnone := Value.objects_or_member?_eq_none h.kind_eq
  · have related := (sameUpTo_core_map_iff (Value.keysDistinct_object_iff.1 h.keys).1
      (Value.keysDistinct_object_iff.1 h.keys').1).1 h.same name
    exact rel_imp related fun part hpart part' hpart' same =>
      ⟨h.keys.of_member? hpart, h.keys'.of_member? hpart', same⟩
  · rw [(hnone name).1, (hnone name).2]
    exact .none

theorem item?_rel (h : SameCore numbers .branches v w) (index : Nat) :
    Option.Rel (SameCore numbers .schema) (v.item? index) (w.item? index) := by
  have kind := h.kind_eq
  cases v with
  | array items =>
      cases w with
      | array items' =>
          have related := getElem?_rel_of_forall₂ (sameUpTo_core_branches_iff.1 h.same) index
          refine rel_imp related fun part hpart part' hpart' same => ⟨?_, ?_, same⟩
          · exact Value.keysDistinct_array_iff.1 h.keys _ (List.mem_of_getElem? hpart)
          · exact Value.keysDistinct_array_iff.1 h.keys' _ (List.mem_of_getElem? hpart')
      | _ => cases kind
  | _ =>
      cases w with
      | array items' => cases kind
      | _ => exact .none

/-- **The same cores have the same subschemas**, at every depth. -/
theorem schemaAt?_rel (h : SameCore numbers .schema v w) (steps : List Step) :
    Option.Rel (SameCore numbers .schema) (v.schemaAt? steps) (w.schemaAt? steps) := by
  fun_induction Value.schemaAt? v steps generalizing w with
  | case1 v => exact .some h
  | case2 v name steps ih =>
      refine rel_bind (h.said?_rel (by decide) rfl) fun _ _ _ _ hmap => ?_
      exact rel_bind (hmap.member?_rel name) fun _ _ _ _ => ih _
  | case3 v steps ih =>
      refine rel_bind (h.said?_rel (by decide) rfl) fun _ _ _ _ hitems => ih _ ?_
      -- apart from arrays, which are silent here, a value of `items` is a schema like any other
      have same := hitems.same
      rw [core_itemSchema, core_itemSchema] at same
      exact ⟨hitems.keys, hitems.keys', same⟩
  | case4 v steps ih =>
      exact rel_bind (h.said?_rel (by decide) rfl) fun _ _ _ _ => ih _
  | case5 v keyword index steps ih =>
      have hkey : keyword.keyword ≠ "const" ∧
          List.lookup keyword.keyword roleKeywords = some .branches := by
        cases keyword <;> exact ⟨by decide, rfl⟩
      refine rel_bind (h.said?_rel hkey.1 hkey.2) fun _ _ _ _ hbranches => ?_
      exact rel_bind (hbranches.item?_rel index) fun _ _ _ _ => ih _
  | case6 =>
      rw [Value.schemaAt?]
      · exact .none
      all_goals assumption

/-- What has the same core looks the same. -/
theorem agrees (h : SameCore numbers .schema v w) : v.Agrees numbers w where
  core := h.same
  kind := h.kind_eq
  additional := by
    have related : Option.Rel (SameCore numbers .schema) (v.said? "additionalProperties" .schema)
        (w.said? "additionalProperties" .schema) := h.said?_rel (by decide) rfl
    rw [Value.additionalForm, Value.additionalForm]
    generalize v.said? "additionalProperties" .schema = part at related ⊢
    generalize w.said? "additionalProperties" .schema = part' at related ⊢
    cases related with
    | none => rfl
    | some hpart => exact AdditionalForm.ofCore_eq hpart.same
  whole := by
    intro key hkey
    have whole : corePart? key = some := by
      simp only [List.mem_cons, List.not_mem_nil, or_false] at hkey
      rcases hkey with rfl | rfl <;> exact funext fun value => by cases value <;> rfl
    simpa only [whole, Option.bind_fun_some] using h.corePart?_rel key

end SameCore

end SchemaAudit
