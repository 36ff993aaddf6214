/-
**Maps from names.**

A map from names is a list of entries whose names ascend, by code points. Whatever the order in
which entries are added, the map is the same.

* `NameMap`, `NameMap.Sorted` — the list, and the order that it keeps;
* `NameMap.insert`, `NameMap.ofList`, `NameMap.find?` — building a map, and looking a name up;
* `NameMap.Sorted.insert`, `NameMap.sorted_ofList` — what is built is sorted.
-/

set_option relaxedAutoImplicit false
set_option autoImplicit false

namespace SchemaAudit

/-- A map from names, as the list of its entries. -/
abbrev NameMap (α : Type) := List (String × α)

namespace NameMap

variable {α : Type}

/-- The names of the entries ascend; no name occurs twice. -/
def Sorted (m : NameMap α) : Prop := m.Pairwise fun a b => a.1 < b.1

/-- Sets the entry of a name. -/
def insert (name : String) (value : α) : NameMap α → NameMap α
  | [] => [(name, value)]
  | (k, v) :: rest =>
    if name < k then (name, value) :: (k, v) :: rest
    else if name = k then (name, value) :: rest
    else (k, v) :: insert name value rest

/-- The map of a list of entries; of several entries with one name, the last one counts. -/
def ofList (entries : List (String × α)) : NameMap α :=
  entries.foldl (fun m entry => m.insert entry.1 entry.2) []

/-- The value under a name. -/
def find? (m : NameMap α) (name : String) : Option α := List.lookup name m

/-- Whether a name has an entry. -/
def contains (m : NameMap α) (name : String) : Bool := (m.find? name).isSome

/-- The names, in ascending order. -/
def names (m : NameMap α) : List String := m.map Prod.fst

/-! ### The order is kept -/

theorem mem_insert {entry : String × α} {name : String} {value : α} {m : NameMap α}
    (h : entry ∈ m.insert name value) : entry = (name, value) ∨ entry ∈ m := by
  induction m with
  | nil => simpa [insert] using h
  | cons head rest ih =>
    obtain ⟨k, v⟩ := head
    simp only [insert] at h
    split at h
    · simpa using h
    · split at h
      · rcases List.mem_cons.1 h with h | h
        · exact .inl h
        · exact .inr (List.mem_cons_of_mem _ h)
      · rcases List.mem_cons.1 h with h | h
        · exact .inr (h ▸ List.mem_cons_self)
        · exact (ih h).imp_right (List.mem_cons_of_mem _)

theorem Sorted.insert {m : NameMap α} (hm : m.Sorted) (name : String) (value : α) :
    (m.insert name value).Sorted := by
  induction m with
  | nil => simp [NameMap.insert, Sorted]
  | cons head rest ih =>
    obtain ⟨k, v⟩ := head
    have hm' := List.pairwise_cons.1 hm
    simp only [NameMap.insert]
    split
    · rename_i hlt
      refine List.pairwise_cons.2 ⟨?_, hm⟩
      intro entry he
      rcases List.mem_cons.1 he with rfl | he
      · exact hlt
      · exact String.lt_trans hlt (hm'.1 entry he)
    · rename_i hlt
      split
      · rename_i heq
        subst heq
        exact List.pairwise_cons.2 ⟨hm'.1, hm'.2⟩
      · rename_i hne
        refine List.pairwise_cons.2 ⟨?_, ih hm'.2⟩
        intro entry he
        rcases mem_insert he with rfl | he
        · exact String.not_le.1 fun hle =>
            hne (String.le_antisymm hle (String.not_lt.1 hlt))
        · exact hm'.1 entry he

/-- A map holds nothing but what was added. -/
theorem mem_of_mem_ofList {entry : String × α} {entries : List (String × α)}
    (h : entry ∈ ofList entries) : entry ∈ entries := by
  have build : ∀ (entries : List (String × α)) (m : NameMap α),
      entry ∈ entries.foldl (fun m entry => m.insert entry.1 entry.2) m →
        entry ∈ m ∨ entry ∈ entries := by
    intro entries
    induction entries with
    | nil => exact fun m h => .inl h
    | cons head rest ih =>
      intro m h
      rcases ih _ h with h | h
      · rcases mem_insert h with rfl | h
        · exact .inr List.mem_cons_self
        · exact .inl h
      · exact .inr (List.mem_cons_of_mem _ h)
  exact (build entries [] h).resolve_left (by simp)

theorem sorted_ofList (entries : List (String × α)) : (ofList entries).Sorted := by
  have build : ∀ (entries : List (String × α)) (m : NameMap α), m.Sorted →
      (entries.foldl (fun m entry => m.insert entry.1 entry.2) m).Sorted := by
    intro entries
    induction entries with
    | nil => exact fun _ hm => hm
    | cons entry rest ih => exact fun m hm => ih _ (hm.insert entry.1 entry.2)
  exact build entries [] List.Pairwise.nil

end NameMap

end SchemaAudit
