/-
**Records.**

A record is a list of named entries in the order in which their names were first added, as in the
members of a JSON object or the entries of a directory.

* `Record.put` — sets the entry of a name;
* `Record.lookup_put`, `Record.lookup_put_of_ne` — what is found afterwards;
* `Record.mem_of_lookup_eq_some` — what is found is there;
* `Record.lookup_eq_some_iff` — with distinct names, what is found under a name is its entry.
-/

set_option relaxedAutoImplicit false
set_option autoImplicit false

namespace SchemaAudit

/-- Named entries in the order in which their names were first added. -/
abbrev Record (α : Type) := List (String × α)

namespace Record

variable {α : Type}

/-- Sets an entry. A name that is present keeps its position and takes the new value. -/
def put (name : String) (value : α) : Record α → Record α
  | [] => [(name, value)]
  | (k, v) :: rest => if k = name then (k, value) :: rest else (k, v) :: put name value rest

/-- What was put is found again under its name. -/
theorem lookup_put (name : String) (value : α) (r : Record α) :
    List.lookup name (r.put name value) = some value := by
  induction r with
  | nil => simp [put]
  | cons head rest ih =>
    obtain ⟨k, v⟩ := head
    by_cases h : k = name
    · simp [put, h]
    · have h' : (name == k) = false := by simpa using fun e => h e.symm
      simp [put, h, List.lookup_cons, h', ih]

/-- Putting one entry leaves what the other names lead to as it was. -/
theorem lookup_put_of_ne {name other : String} (value : α) (r : Record α) (h : other ≠ name) :
    List.lookup other (r.put name value) = List.lookup other r := by
  induction r with
  | nil =>
    have h' : (other == name) = false := by simpa using h
    simp [put, List.lookup_cons, h']
  | cons head rest ih =>
    obtain ⟨k, v⟩ := head
    by_cases hk : k = name
    · have h' : (other == k) = false := by simpa [hk] using h
      simp [put, hk, List.lookup_cons, hk ▸ h']
    · simp [put, hk, List.lookup_cons, ih]

/-- What is found under a name is an entry of this name. -/
theorem mem_of_lookup_eq_some {name : String} {value : α} {r : Record α}
    (h : List.lookup name r = some value) : (name, value) ∈ r := by
  obtain ⟨before, after, rfl, -⟩ := List.lookup_eq_some_iff.1 h
  exact List.mem_append_right before List.mem_cons_self

/-- With distinct names, what is found under a name is the one entry of this name. -/
theorem lookup_eq_some_iff {r : Record α} (h : (r.map Prod.fst).Nodup) {name : String} {value : α} :
    List.lookup name r = some value ↔ (name, value) ∈ r := by
  induction r with
  | nil => simp
  | cons head rest ih =>
    obtain ⟨k, v⟩ := head
    simp only [List.map_cons, List.nodup_cons, List.mem_map, Prod.exists, exists_and_right,
      exists_eq_right, not_exists] at h
    by_cases hk : name = k
    · subst hk
      have hrest : (name, value) ∉ rest := h.1 value
      simp [hrest, eq_comm]
    · have hne : (name == k) = false := by simpa using hk
      simp [List.lookup_cons, hne, hk, ih h.2]

end Record

end SchemaAudit
