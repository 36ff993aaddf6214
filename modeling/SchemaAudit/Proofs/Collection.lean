/-
**Which files a path stands for.**

A directory stands for the schema files below it, whatever the depth.  The rule names them by the
paths that lead there and by their extension, and orders their paths component by component.  This
module proves that collecting finds exactly these files, each of them once and in this order,
whichever way the entries of a directory are listed.

Main definitions:

* `Entry.WellFormed` — trees in which names are different and can stand in a path;
* `HasExtension` — **the text after the last dot of a name**;
* `Path.components`, `Path.Precedes` — the components of a path and the order that goes by their
  bytes;
* `FileSystem.Relisted` — the same tree, with the entries of its directories in another order.

Main results:

* `Entry.mem_schemaFiles_iff`, `Entry.nodup_schemaFiles` — what is collected below a directory;
* `FileSystem.find?_below` — names below a path lead to what the names lead to from there;
* `FileSystem.collect_exact` — **the files that a path stands for**.
-/

import SchemaAudit.Proofs.BranchOrder
import SchemaAudit.Proofs.ByteOrder
import SchemaAudit.Proofs.SettingsFile

set_option relaxedAutoImplicit false
set_option autoImplicit false

namespace SchemaAudit

/-! ### Trees -/

/-- A tree as it can stand in a file system: the entries of a directory have different names, and
each name can stand in a path. -/
inductive Entry.WellFormed : Entry → Prop
  | file (content : ByteArray) : WellFormed (.file content)
  | directory {entries : List (String × Entry)} (distinct : (entries.map Prod.fst).Nodup)
      (names : ∀ entry ∈ entries, Path.IsName entry.1)
      (below : ∀ entry ∈ entries, WellFormed entry.2) : WellFormed (.directory entries)

/-- The same tree, with the entries of each directory listed in some other order. -/
inductive Entry.Relisted : Entry → Entry → Prop
  | file (content : ByteArray) : Relisted (.file content) (.file content)
  | directory {entries mid entries' : List (String × Entry)} (perm : entries.Perm mid)
      (related : List.Forall₂ (NameMap.EntryRel Relisted) mid entries') :
      Relisted (.directory entries) (.directory entries')

/-- The same tree of files, with the entries of each directory listed in some other order. -/
structure FileSystem.Relisted (fs other : FileSystem) : Prop where
  root : fs.root.Relisted other.root
  workingDirectory : fs.workingDirectory = other.workingDirectory

/-- **The text after the last dot of a name**, which does not count at the start of the name. -/
def HasExtension (extension name : String) : Prop :=
  '.' ∉ extension.toList ∧ ∃ stem, stem ≠ "" ∧ name = stem ++ "." ++ extension

/-- The names lead to a file of the extension `json`. -/
def Entry.HoldsSchemaFile (e : Entry) (names : List String) : Prop :=
  (∃ content, e.descend? names = some (.file content)) ∧
    ∃ name, names.getLast? = some name ∧ HasExtension "json" name

theorem isSchemaName_iff {name : String} : isSchemaName name = true ↔ HasExtension "json" name := by
  rw [HasExtension, isSchemaName]
  constructor
  · intro h
    refine ⟨by decide, ?_⟩
    split at h
    · rename_i c cs heq
      refine ⟨String.ofList (c :: cs).reverse, by simp, String.toList_inj.1 ?_⟩
      have := congrArg List.reverse heq
      rw [List.reverse_reverse] at this
      simp [this]
    · cases h
  · rintro ⟨-, stem, hstem, rfl⟩
    have hne : stem.toList.reverse ≠ [] := by simpa using hstem
    obtain ⟨c, cs, hcs⟩ := List.exists_cons_of_ne_nil hne
    simp [hcs]

/-! ### What is collected below a directory -/

theorem schemaFilesIn_eq (location : List String) (entries : List (String × Entry)) :
    schemaFilesIn location entries = entries.flatMap fun entry =>
      (if !entry.2.isDirectory && isSchemaName entry.1 then [location ++ [entry.1]] else []) ++
        entry.2.schemaFiles (location ++ [entry.1]) := by
  induction entries with
  | nil => rfl
  | cons entry rest ih => rw [List.flatMap_cons, ← ih]; rfl

namespace Entry

variable {e : Entry} {location found names : List String}

theorem descend?_cons (e : Entry) (name : String) (names : List String) :
    e.descend? (name :: names) =
      (List.lookup name e.entries).bind fun below => below.descend? names :=
  List.foldlM_cons

/-- Below a file there is nothing. -/
theorem not_holdsSchemaFile_file (content : ByteArray) :
    ¬(Entry.file content).HoldsSchemaFile names := by
  rintro ⟨⟨content', h⟩, name, hname, -⟩
  cases names with
  | nil => cases hname
  | cons first rest => simp [descend?_cons, entries] at h

/-- A directory holds a schema file under its own name, or one of its directories does. -/
theorem holdsSchemaFile_directory_iff {entries : List (String × Entry)}
    (distinct : (entries.map Prod.fst).Nodup) :
    (Entry.directory entries).HoldsSchemaFile names ↔
      ∃ name below rest, (name, below) ∈ entries ∧ names = name :: rest ∧
        (rest = [] ∧ below.isDirectory = false ∧ HasExtension "json" name ∨
          below.HoldsSchemaFile rest) := by
  cases names with
  | nil => simp [HoldsSchemaFile]
  | cons name rest =>
      rw [HoldsSchemaFile, descend?_cons, Entry.entries]
      constructor
      · rintro ⟨⟨content, h⟩, last, hlast, hextension⟩
        obtain ⟨below, hbelow, h⟩ := Option.bind_eq_some_iff.1 h
        refine ⟨name, below, rest, (Record.lookup_eq_some_iff distinct).1 hbelow, rfl, ?_⟩
        cases rest with
        | nil =>
            cases h
            cases hlast
            exact .inl ⟨rfl, rfl, hextension⟩
        | cons next rest => exact .inr ⟨⟨content, h⟩, last, hlast, hextension⟩
      · rintro ⟨_, below, _, hentry, ⟨⟩, h⟩
        rw [(Record.lookup_eq_some_iff distinct).2 hentry, Option.bind_some]
        rcases h with ⟨rfl, hfile, hextension⟩ | ⟨hcontent, last, hlast, hextension⟩
        · cases below with
          | file content => exact ⟨⟨content, rfl⟩, name, rfl, hextension⟩
          | directory entries => cases hfile
        · refine ⟨hcontent, last, ?_, hextension⟩
          cases rest with
          | nil => cases hlast
          | cons next rest => exact hlast

/-- **What is collected below an entry are the schema files that it holds.** -/
theorem mem_schemaFiles_iff (h : e.WellFormed) :
    found ∈ e.schemaFiles location ↔
      ∃ names, found = location ++ names ∧ e.HoldsSchemaFile names := by
  induction h generalizing location with
  | file content => simp [schemaFiles, not_holdsSchemaFile_file]
  | @directory entries distinct _ _ ih =>
      rw [schemaFiles, schemaFilesIn_eq, List.mem_flatMap]
      constructor
      · rintro ⟨⟨name, below⟩, hentry, hfound⟩
        rcases List.mem_append.1 hfound with hfound | hfound
        · split at hfound
          · rename_i hname
            simp only [Bool.and_eq_true, Bool.not_eq_true'] at hname
            refine ⟨[name], List.mem_singleton.1 hfound, ?_⟩
            exact (holdsSchemaFile_directory_iff distinct).2 ⟨name, below, [], hentry, rfl,
              .inl ⟨rfl, hname.1, isSchemaName_iff.1 hname.2⟩⟩
          · cases hfound
        · obtain ⟨rest, rfl, hrest⟩ := (ih _ hentry).1 hfound
          refine ⟨name :: rest, List.append_assoc .., ?_⟩
          exact (holdsSchemaFile_directory_iff distinct).2 ⟨name, below, rest, hentry, rfl,
            .inr hrest⟩
      · rintro ⟨_, rfl, hnames⟩
        obtain ⟨name, below, rest, hentry, rfl, hrest⟩ :=
          (holdsSchemaFile_directory_iff distinct).1 hnames
        refine ⟨(name, below), hentry, List.mem_append.2 ?_⟩
        rcases hrest with ⟨rfl, hfile, hextension⟩ | hrest
        · exact .inl (by simp [hfile, isSchemaName_iff.2 hextension])
        · exact .inr ((ih _ hentry).2 ⟨rest, by simp, hrest⟩)

/-- Among the entries of a directory are collected the schema files that it holds. -/
theorem mem_schemaFilesIn_iff {entries : List (String × Entry)}
    (h : (Entry.directory entries).WellFormed) :
    names ∈ schemaFilesIn [] entries ↔ (Entry.directory entries).HoldsSchemaFile names :=
  (mem_schemaFiles_iff h).trans (by simp)

/-- **Nothing is collected twice.** -/
theorem nodup_schemaFiles (h : e.WellFormed) : (e.schemaFiles location).Nodup := by
  induction h generalizing location with
  | file content => exact List.nodup_nil
  | @directory entries distinct _ below ih =>
      -- what is found among the entries starts with the name of its entry
      have start : ∀ entry ∈ entries, ∀ found ∈
          (if !entry.2.isDirectory && isSchemaName entry.1 then [location ++ [entry.1]] else []) ++
            entry.2.schemaFiles (location ++ [entry.1]),
          ∃ rest, found = location ++ entry.1 :: rest := by
        intro entry hentry found hfound
        rcases List.mem_append.1 hfound with hfound | hfound
        · split at hfound
          · exact ⟨[], List.mem_singleton.1 hfound⟩
          · cases hfound
        · obtain ⟨rest, rfl, -⟩ := (mem_schemaFiles_iff (below _ hentry)).1 hfound
          exact ⟨rest, List.append_assoc ..⟩
      rw [schemaFiles, schemaFilesIn_eq]
      refine List.nodup_flatMap.2 ⟨fun entry hentry => ?_, ?_⟩
      · obtain ⟨name, content | entries⟩ := entry
        · rw [schemaFiles, List.append_nil]
          by_cases hname : isSchemaName name <;> simp [isDirectory, hname]
        · simpa [isDirectory] using ih _ hentry
      · refine List.Pairwise.imp_of_mem ?_ (List.pairwise_map.1 distinct)
        intro entry other hentry hother hne found hfound hfound'
        obtain ⟨rest, rfl⟩ := start entry hentry found hfound
        obtain ⟨rest', heq⟩ := start other hother _ hfound'
        exact hne (List.cons.inj (List.append_cancel_left heq)).1

end Entry

/-! ### The order in which entries are listed -/

namespace Entry

variable {e e' : Entry}

theorem WellFormed.nodup_entries (h : e.WellFormed) : (e.entries.map Prod.fst).Nodup := by
  cases h with
  | file content => exact List.nodup_nil
  | directory distinct => exact distinct

theorem WellFormed.of_mem (h : e.WellFormed) {name : String} {below : Entry}
    (hentry : (name, below) ∈ e.entries) : below.WellFormed := by
  cases h with
  | file content => cases hentry
  | directory _ _ parts => exact parts _ hentry

theorem WellFormed.isName_of_mem (h : e.WellFormed) {name : String} {below : Entry}
    (hentry : (name, below) ∈ e.entries) : Path.IsName name := by
  cases h with
  | file content => cases hentry
  | directory _ names => exact names _ hentry

/-- What a location leads to is well-formed, and the names on the way can stand in a path. -/
theorem WellFormed.of_descend? (h : e.WellFormed) {names : List String} {below : Entry}
    (hbelow : e.descend? names = some below) :
    below.WellFormed ∧ ∀ name ∈ names, Path.IsName name := by
  induction names generalizing e with
  | nil =>
      cases hbelow
      exact ⟨h, by simp⟩
  | cons name rest ih =>
      rw [descend?_cons] at hbelow
      obtain ⟨next, hnext, hbelow⟩ := Option.bind_eq_some_iff.1 hbelow
      have hentry := Record.mem_of_lookup_eq_some hnext
      obtain ⟨hform, hnames⟩ := ih (h.of_mem hentry) hbelow
      exact ⟨hform, List.forall_mem_cons.2 ⟨h.isName_of_mem hentry, hnames⟩⟩

/-- Under each name relisted trees hold relisted entries. -/
theorem Relisted.lookup_rel (h : e.Relisted e') (hform : e.WellFormed) (name : String) :
    Option.Rel (fun below below' => below.WellFormed ∧ below.Relisted below')
      (List.lookup name e.entries) (List.lookup name e'.entries) := by
  cases h with
  | file content => exact .none
  | directory perm related =>
      exact Record.lookup_rel hform.nodup_entries perm related fun _ _ hentry hbelow =>
        ⟨hform.of_mem hentry, hbelow⟩

/-- At each location relisted trees hold relisted entries. -/
theorem Relisted.descend?_rel (h : e.Relisted e') (hform : e.WellFormed) (names : List String) :
    Option.Rel (fun below below' => below.WellFormed ∧ below.Relisted below')
      (e.descend? names) (e'.descend? names) := by
  induction names generalizing e e' with
  | nil => exact .some ⟨hform, h⟩
  | cons name rest ih =>
      have related := h.lookup_rel hform name
      rw [descend?_cons, descend?_cons]
      generalize List.lookup name e.entries = below at related ⊢
      generalize List.lookup name e'.entries = below' at related ⊢
      cases related with
      | none => exact .none
      | some hbelow => exact ih hbelow.2 hbelow.1

/-- Relisted trees hold the same schema files. -/
theorem Relisted.holdsSchemaFile_iff (h : e.Relisted e') (hform : e.WellFormed)
    (names : List String) : e.HoldsSchemaFile names ↔ e'.HoldsSchemaFile names := by
  have related := h.descend?_rel hform names
  refine and_congr_left fun _ => exists_congr fun content => ?_
  generalize e.descend? names = found at related ⊢
  generalize e'.descend? names = found' at related ⊢
  cases related with
  | none => exact Iff.rfl
  | some hbelow =>
      cases hbelow.2 with
      | file content' => exact Iff.rfl
      | directory perm related => simp

/-- A tree stays well-formed when its directories are relisted. -/
theorem WellFormed.relisted (h : e.WellFormed) (hrelisted : e.Relisted e') : e'.WellFormed := by
  induction h generalizing e' with
  | file content =>
      cases hrelisted
      exact .file content
  | @directory entries distinct names _ ih =>
      cases hrelisted with
      | @directory _ mid entries' perm related =>
          have same : mid.map Prod.fst = entries'.map Prod.fst := NameMap.names_eq_of_rel related
          have behind : ∀ entry' ∈ entries', ∃ entry ∈ entries,
              entry.1 = entry'.1 ∧ entry.2.Relisted entry'.2 := by
            intro entry' hentry'
            have reordering : Reordering (NameMap.EntryRel Relisted) entries entries' :=
              ⟨mid, perm, related⟩
            obtain ⟨entry, hentry, ⟨name, hvalue⟩⟩ := reordering.exists_of_mem_right hentry'
            exact ⟨_, hentry, rfl, hvalue⟩
          refine .directory (same ▸ (perm.map Prod.fst).nodup_iff.1 distinct) ?_ ?_
          · intro entry' hentry'
            obtain ⟨entry, hentry, hname, -⟩ := behind entry' hentry'
            exact hname ▸ names entry hentry
          · intro entry' hentry'
            obtain ⟨entry, hentry, -, hbelow⟩ := behind entry' hentry'
            exact ih entry hentry hbelow

end Entry

namespace FileSystem.Relisted

variable {fs other : FileSystem} (h : fs.Relisted other) (hform : fs.root.WellFormed)

include h hform

theorem step?_eq (location : List String) (piece : String) :
    fs.step? location piece = other.step? location piece := by
  have related := h.root.descend?_rel hform location
  rw [step?, step?]
  generalize fs.root.descend? location = found at related ⊢
  generalize other.root.descend? location = found' at related ⊢
  cases related with
  | none => rfl
  | @some below below' hbelow =>
      have lookup := hbelow.2.lookup_rel hbelow.1 piece
      cases hbelow.2 with
      | file content => rfl
      | directory perm related =>
          have := isSome_eq_of_rel lookup
          simp only [Entry.entries] at this
          simp only [this]

theorem locate?_eq (p : Path) : fs.locate? p = other.locate? p := by
  have step : fs.step? = other.step? := by
    funext location piece
    exact h.step?_eq hform location piece
  rw [locate?, locate?, origin, origin, step, h.workingDirectory]

/-- A path names relisted entries. -/
theorem find?_rel (p : Path) :
    Option.Rel (fun e e' => e.WellFormed ∧ e.Relisted e') (fs.find? p) (other.find? p) := by
  rw [find?, find?, ← h.locate?_eq hform p]
  cases fs.locate? p with
  | none => exact .none
  | some location => exact h.root.descend?_rel hform location

end FileSystem.Relisted

/-! ### Paths below a path -/

/-- A component of a path. -/
inductive Component where
  /-- The slash at the start of a path. -/
  | root
  /-- A dot at the start of a path. -/
  | here
  /-- Two dots. -/
  | above
  | name (text : String)
deriving DecidableEq

/-- The place of a component in the order of components, among those of other kinds. -/
def Component.rank : Component → ℕ
  | .root => 0
  | .here => 1
  | .above => 2
  | .name _ => 3

/-- **The order of components**: names come last and are in the order of their bytes. -/
inductive Component.Before : Component → Component → Prop
  | rank {c d : Component} (h : c.rank < d.rank) : Before c d
  | bytes {name other : String} (h : nameBytes name < nameBytes other) :
      Before (.name name) (.name other)

/-- The component that a piece of a path makes anywhere but at its start. -/
def Component.ofPiece? (piece : String) : Option Component :=
  if piece = "" ∨ piece = "." then none
  else if piece = ".." then some .above
  else some (.name piece)

namespace Path

/-- The components of a path: blank pieces and dots count for nothing, but a dot at the start. -/
def components (p : Path) : List Component :=
  (if p.absolute then [.root] else if p.pieces.head? = some "." then [.here] else []) ++
    p.pieces.filterMap Component.ofPiece?

/-- One path comes before another one, **component by component**. -/
def Precedes (p q : Path) : Prop := List.Lex Component.Before p.components q.components

/-- Some names below a path. -/
def below (p : Path) (names : List String) : Path := names.foldl join p

/-- The pieces of a path to which names are added. -/
def base (p : Path) : List String :=
  if p.pieces.getLast? = some "" then p.pieces.dropLast else p.pieces

theorem join_eq (p : Path) (name : String) : p.join name = ⟨p.absolute, p.base ++ [name]⟩ := by
  rw [join, base]
  split <;> rfl

theorem base_join (p : Path) {name : String} (h : IsName name) :
    (p.join name).base = p.base ++ [name] := by
  rw [join_eq, base, if_neg]
  simpa using h.1

theorem below_eq (p : Path) {names : List String} (hne : names ≠ [])
    (h : ∀ name ∈ names, IsName name) : p.below names = ⟨p.absolute, p.base ++ names⟩ := by
  induction names generalizing p with
  | nil => exact absurd rfl hne
  | cons name rest ih =>
      obtain ⟨hname, hrest⟩ := List.forall_mem_cons.1 h
      rw [below, List.foldl_cons]
      cases rest with
      | nil => exact join_eq p name
      | cons next rest =>
          have hbelow := ih (p.join name) (by simp) hrest
          rw [below] at hbelow
          rw [hbelow, base_join p hname, List.append_assoc, join_eq]
          rfl

/-- What a path ends with beyond its base names nothing. -/
theorem pieces_eq (p : Path) : ∃ blank ∈ [[], [""]], p.pieces = p.base ++ blank := by
  rw [base]
  split
  · rename_i h
    exact ⟨[""], by simp, (List.dropLast_append_getLast? _ h).symm⟩
  · exact ⟨[], by simp, (List.append_nil _).symm⟩

theorem ofPiece?_name {name : String} (h : IsName name) :
    Component.ofPiece? name = some (.name name) := by
  obtain ⟨hblank, hdot, hdots⟩ := h
  simp [Component.ofPiece?, hblank, hdot, hdots]

/-- **The components of names below a path are those of the path, and the names.** -/
theorem components_below (p : Path) {names : List String} (h : ∀ name ∈ names, IsName name) :
    (p.below names).components = p.components ++ names.map .name := by
  cases names with
  | nil => simp [below]
  | cons name rest =>
      have hnames : (name :: rest).filterMap Component.ofPiece? = (name :: rest).map .name := by
        rw [← List.filterMap_eq_map]
        exact List.filterMap_congr fun name hname => ofPiece?_name (h name hname)
      rw [below_eq p (by simp) h, components, List.filterMap_append, hnames, ← List.append_assoc]
      obtain ⟨blank, hblank, hpieces⟩ := p.pieces_eq
      have hname := h name List.mem_cons_self
      have hblanks : blank.filterMap Component.ofPiece? = [] := by
        simp only [List.mem_cons, List.not_mem_nil, or_false] at hblank
        rcases hblank with rfl | rfl <;> rfl
      have hstart : (p.base ++ name :: rest).head? = some "." ↔ p.pieces.head? = some "." := by
        rw [hpieces]
        cases p.base with
        | nil =>
            simp only [List.mem_cons, List.not_mem_nil, or_false] at hblank
            rcases hblank with rfl | rfl <;> simp [hname.2.1]
        | cons first pieces => simp
      rw [components, hpieces, List.filterMap_append, hblanks, List.append_nil, ← hpieces]
      simp only [hstart]

/-- Different names below a path make different paths. -/
theorem below_injOn {p : Path} {names other : List String} (h : ∀ name ∈ names, IsName name)
    (h' : ∀ name ∈ other, IsName name) (heq : p.below names = p.below other) : names = other := by
  have components := congrArg components heq
  rw [p.components_below h, p.components_below h'] at components
  exact List.map_injective_iff.2 (fun _ _ => Component.name.inj)
    (List.append_cancel_left components)

end Path

/-! ### The order of locations -/

theorem atOrBefore_iff {a b : List String} : atOrBefore a b = true ↔ a ≤ b := by
  rw [← not_lt]
  induction a generalizing b with
  | nil => simp [atOrBefore]
  | cons name rest ih =>
      cases b with
      | nil => simp [atOrBefore]
      | cons other rest' =>
          rw [atOrBefore, List.cons_lt_cons_iff]
          split
          · rename_i heq
            simp [ih, heq]
          · rename_i hne
            simp [Ne.symm hne, lt_iff_le_and_ne, hne]

theorem pairwise_le_mergeSort (locations : List (List String)) :
    (locations.mergeSort atOrBefore).Pairwise (· ≤ ·) := by
  have trans : ∀ a b c, atOrBefore a b = true → atOrBefore b c = true → atOrBefore a c = true := by
    intro a b c hab hbc
    exact atOrBefore_iff.2 ((atOrBefore_iff.1 hab).trans (atOrBefore_iff.1 hbc))
  have total : ∀ a b, (atOrBefore a b || atOrBefore b a) = true := by
    intro a b
    rw [Bool.or_eq_true, atOrBefore_iff, atOrBefore_iff]
    exact le_total a b
  have sorted := List.pairwise_mergeSort trans total locations
  exact sorted.imp atOrBefore_iff.1

/-- Locations in ascending order make paths in ascending order. -/
theorem precedes_below {p : Path} {a b : List String} (ha : ∀ name ∈ a, Path.IsName name)
    (hb : ∀ name ∈ b, Path.IsName name) (h : a < b) : (p.below a).Precedes (p.below b) := by
  rw [Path.Precedes, p.components_below ha, p.components_below hb]
  refine List.Lex.append_left _ ?_ _
  clear ha hb
  induction a generalizing b with
  | nil =>
      cases b with
      | nil => exact absurd h (lt_irrefl _)
      | cons other rest' => exact .nil
  | cons name rest ih =>
      cases b with
      | nil => simp at h
      | cons other rest' =>
          rcases List.cons_lt_cons_iff.1 h with hlt | ⟨rfl, hlt⟩
          · exact .rel (.bytes (nameBytes_lt_iff.2 hlt))
          · exact .cons (ih hlt)

/-! ### Files below a path -/

namespace FileSystem

variable {fs : FileSystem} {p : Path}

theorem exists_of_isDirectory (h : fs.isDirectory p = true) :
    ∃ entries, fs.find? p = some (.directory entries) := by
  rw [isDirectory] at h
  split at h
  · rename_i entries heq
    exact ⟨entries, heq⟩
  · cases h

theorem isFile_iff : fs.isFile p = true ↔ ∃ content, fs.find? p = some (.file content) := by
  rw [isFile]
  rcases fs.find? p with _ | _ | _ <;> simp

theorem foldlM_step?_of_locate? {location : List String} (h : fs.locate? p = some location) :
    p.pieces.foldlM fs.step? (fs.origin p) = some location := by
  rw [locate?] at h
  split at h
  · cases h
  · exact h

/-- The way along the pieces of a path goes along those that count. -/
theorem foldlM_step?_base {location : List String}
    (h : p.pieces.foldlM fs.step? (fs.origin p) = some location) :
    p.base.foldlM fs.step? (fs.origin p) = some location := by
  obtain ⟨blank, hblank, hpieces⟩ := p.pieces_eq
  rw [hpieces, List.foldlM_append] at h
  obtain ⟨here, hhere, h⟩ := Option.bind_eq_some_iff.1 h
  rw [hhere]
  simp only [List.mem_cons, List.not_mem_nil, or_false] at hblank
  rcases hblank with rfl | rfl
  · exact h
  · -- a blank piece leads nowhere else
    have hstep : fs.step? here "" = some location := by simpa using h
    rw [step?_blank] at hstep
    split at hstep
    · exact hstep
    · cases hstep

/-- **Names below a directory lead to what they lead to from there.** -/
theorem find?_below {entries : List (String × Entry)} (hp : fs.find? p = some (.directory entries))
    {names : List String} (h : ∀ name ∈ names, Path.IsName name) :
    fs.find? (p.below names) = (Entry.directory entries).descend? names := by
  cases names with
  | nil => exact hp
  | cons name rest =>
      obtain ⟨location, hlocation, hat⟩ := Option.bind_eq_some_iff.1 hp
      have hasAt : fs.hasAt location = true := by rw [FileSystem.hasAt, hat]; rfl
      have hname := h name List.mem_cons_self
      have hlocate : fs.locate? (p.below (name :: rest)) =
          if fs.hasAt (location ++ name :: rest) then some (location ++ name :: rest) else none := by
        rw [p.below_eq (by simp) h, locate?, if_neg (by simp [Path.isEmpty, hname.1]),
          List.foldlM_append]
        have hbase : p.base.foldlM fs.step? (fs.origin ⟨p.absolute, p.base ++ name :: rest⟩) =
            some location := foldlM_step?_base (foldlM_step?_of_locate? hlocation)
        rw [hbase]
        exact foldlM_step?_names hasAt h
      have hdescend : fs.root.descend? (location ++ name :: rest) =
          (Entry.directory entries).descend? (name :: rest) := by
        rw [Entry.descend?_append, hat]
        rfl
      rw [find?, hlocate, FileSystem.hasAt, hdescend]
      cases hfound : (Entry.directory entries).descend? (name :: rest) with
      | none => rfl
      | some found => exact hdescend.trans hfound

end FileSystem

/-! ### What a path stands for -/

namespace FileSystem

variable {fs : FileSystem} {p : Path} {entries : List (String × Entry)}

theorem collect_of_isDirectory_eq_false (h : fs.isDirectory p = false) : fs.collect p = [p] := by
  rw [isDirectory] at h
  rw [collect]
  split
  · rename_i entries heq
    simp [heq] at h
  · rfl

theorem collect_of_find? (hp : fs.find? p = some (.directory entries)) :
    fs.collect p = ((schemaFilesIn [] entries).mergeSort atOrBefore).map p.below := by
  rw [collect, hp]
  rfl

/-- The sorted list of locations does not depend on how the tree is listed. -/
theorem mergeSort_schemaFilesIn_eq {entries' : List (String × Entry)}
    (hform : (Entry.directory entries).WellFormed)
    (h : (Entry.directory entries).Relisted (.directory entries')) :
    (schemaFilesIn [] entries).mergeSort atOrBefore =
      (schemaFilesIn [] entries').mergeSort atOrBefore := by
  have hform' := hform.relisted h
  have perm : (schemaFilesIn [] entries).Perm (schemaFilesIn [] entries') := by
    refine (List.perm_ext_iff_of_nodup (Entry.nodup_schemaFiles hform)
      (Entry.nodup_schemaFiles hform')).2 fun names => ?_
    exact (Entry.mem_schemaFilesIn_iff hform).trans
      ((h.holdsSchemaFile_iff hform names).trans (Entry.mem_schemaFilesIn_iff hform').symm)
  exact List.Perm.eq_of_pairwise (fun a b _ _ => le_antisymm) (pairwise_le_mergeSort _)
    (pairwise_le_mergeSort _)
    ((List.mergeSort_perm _ _).trans (perm.trans (List.mergeSort_perm _ _).symm))

/-- What is collected does not depend on how the tree is listed. -/
theorem Relisted.collect_eq {other : FileSystem} (h : fs.Relisted other)
    (hform : fs.root.WellFormed) (p : Path) : other.collect p = fs.collect p := by
  have related := h.find?_rel hform p
  rw [collect, collect]
  generalize fs.find? p = found at related ⊢
  generalize other.find? p = found' at related ⊢
  cases related with
  | none => rfl
  | some hbelow =>
      obtain ⟨hbelow, hrelisted⟩ := hbelow
      cases hrelisted with
      | file content => rfl
      | directory perm related =>
          simp only [mergeSort_schemaFilesIn_eq hbelow (.directory perm related)]

/-- The schema files below a directory are those files below its path that have the extension. -/
theorem mem_schemaFilesIn_iff (hp : fs.find? p = some (.directory entries))
    (hform : (Entry.directory entries).WellFormed) {names : List String} :
    names ∈ schemaFilesIn [] entries ↔
      (∀ name ∈ names, Path.IsName name) ∧ fs.isFile (p.below names) = true ∧
        ∃ name, names.getLast? = some name ∧ HasExtension "json" name := by
  rw [Entry.mem_schemaFilesIn_iff hform, Entry.HoldsSchemaFile]
  constructor
  · rintro ⟨⟨content, hcontent⟩, hextension⟩
    have hnames := (hform.of_descend? hcontent).2
    exact ⟨hnames, isFile_iff.2 ⟨content, (find?_below hp hnames).trans hcontent⟩, hextension⟩
  · rintro ⟨hnames, hfile, hextension⟩
    obtain ⟨content, hcontent⟩ := isFile_iff.1 hfile
    exact ⟨⟨content, (find?_below hp hnames).symm.trans hcontent⟩, hextension⟩

/-- **The files that a path stands for.**  A path that names no directory stands for itself.  A
directory stands for the files at any depth below it whose name has the extension `json`, whatever
the directories on the way are called; each of them occurs once, and their paths ascend component by
component.  The order in which directories are listed does not matter. -/
theorem collect_exact {fs : FileSystem} (hform : fs.root.WellFormed) (p : Path) :
    (fs.isDirectory p = false → fs.collect p = [p]) ∧
      (fs.isDirectory p = true →
        (∀ q, q ∈ fs.collect p ↔ ∃ names : List String, q = p.below names ∧
          (∀ name ∈ names, Path.IsName name) ∧ fs.isFile q = true ∧
            ∃ name, names.getLast? = some name ∧ HasExtension "json" name) ∧
        (fs.collect p).Pairwise Path.Precedes ∧ (fs.collect p).Nodup) ∧
      ∀ other, fs.Relisted other → other.collect p = fs.collect p := by
  refine ⟨collect_of_isDirectory_eq_false, fun hdirectory => ?_,
    fun other h => h.collect_eq hform p⟩
  obtain ⟨entries, hp⟩ := exists_of_isDirectory hdirectory
  obtain ⟨location, -, hat⟩ := Option.bind_eq_some_iff.1 hp
  have hentries := (hform.of_descend? hat).1
  have mem : ∀ names, names ∈ (schemaFilesIn [] entries).mergeSort atOrBefore ↔ _ := fun names =>
    (List.mergeSort_perm _ _).mem_iff.trans (mem_schemaFilesIn_iff hp hentries)
  have nodup : ((schemaFilesIn [] entries).mergeSort atOrBefore).Nodup :=
    (List.mergeSort_perm _ _).nodup_iff.2 (Entry.nodup_schemaFiles hentries)
  rw [collect_of_find? hp]
  refine ⟨fun q => ?_, ?_, ?_⟩
  · rw [List.mem_map]
    constructor
    · rintro ⟨names, hnames, rfl⟩
      exact ⟨names, rfl, (mem names).1 hnames⟩
    · rintro ⟨names, rfl, hnames⟩
      exact ⟨names, (mem names).2 hnames, rfl⟩
  · have ascending := ((pairwise_le_mergeSort _).and nodup).imp fun h => lt_of_le_of_ne h.1 h.2
    refine List.pairwise_map.2 (ascending.imp_of_mem fun hnames hother hlt => ?_)
    exact precedes_below ((mem _).1 hnames).1 ((mem _).1 hother).1 hlt
  · refine nodup.map_on fun names hnames other hother heq => ?_
    exact Path.below_injOn ((mem names).1 hnames).1 ((mem other).1 hother).1 heq

/-- A tree with a directory whose name ends like that of a schema file, listed in one of two
orders. -/
def listing (second : Bool) : FileSystem where
  root := .directory <|
    if second then
      [("b.json", .directory [("notes.md", .file .empty), (".json", .file .empty),
        ("c.json", .file .empty)]), ("a.json", .file .empty)]
    else
      [("a.json", .file .empty), ("b.json", .directory [("c.json", .file .empty),
        (".json", .file .empty), ("notes.md", .file .empty)])]
  workingDirectory := []

theorem wellFormed_listing : (listing false).root.WellFormed := by
  have nested : (Entry.directory [("c.json", .file .empty), (".json", .file .empty),
      ("notes.md", .file .empty)]).WellFormed := by
    refine .directory (by decide) (by decide) ?_
    simp [Entry.WellFormed.file]
  refine .directory (by decide) (by decide) ?_
  exact List.forall_mem_cons.2 ⟨.file _, List.forall_mem_cons.2 ⟨nested, by simp⟩⟩

theorem relisted_listing : (listing false).Relisted (listing true) where
  root := by
    refine .directory (.swap _ _ _) (.cons (.intro _ ?_) (.cons (.intro _ (.file _)) .nil))
    refine .directory (List.reverse_perm _).symm ?_
    exact .cons (.intro _ (.file _)) (.cons (.intro _ (.file _)) (.cons (.intro _ (.file _)) .nil))
  workingDirectory := rfl

theorem text_collect_listing :
    ((listing false).collect (.ofText ".")).map Path.text = ["./a.json", "./b.json/c.json"] := by
  have here : (listing false).find? (.ofText ".") =
      some (.directory (listing false).root.entries) := rfl
  have found : schemaFilesIn [] (listing false).root.entries =
      [["a.json"], ["b.json", "c.json"]] := by decide
  rw [collect_of_find? here, found, List.mergeSort_of_pairwise (by decide)]
  decide

/-- Both listings give the same two files. -/
theorem collect_exact_listing :
    (listing false).root.WellFormed ∧ (listing false).Relisted (listing true) ∧
      (listing false).isDirectory (.ofText ".") = true ∧
      (listing true).collect (.ofText ".") = (listing false).collect (.ofText ".") ∧
      ((listing false).collect (.ofText ".")).map Path.text = ["./a.json", "./b.json/c.json"] :=
  ⟨wellFormed_listing, relisted_listing, by decide,
    (collect_exact wellFormed_listing _).2.2 _ relisted_listing, text_collect_listing⟩

end FileSystem

end SchemaAudit
