/-
**The nearest settings file.**

The search for a settings file goes up along the text of a path, from the path itself to the last
path above it.  Each of these paths stands for a directory, the empty path for the working
directory.  The first directory that has a settings file or an entry `.git` ends the search, and of
the two the settings file counts.

Main definitions:

* `Path.above?`, `Path.depth` — the path so many steps above a path, and the number of steps that
  there are;
* `FileSystem.Holds` — **an entry of the directory that a path stands for**;
* `FileSystem.HasSettings`, `FileSystem.IsRepository` — directories that end a search;
* `Settings.Ends` — the search as a loop that takes up one directory in a round.

Main results:

* `Path.components_of_above?`, `Path.exists_above?_iff` — each step cuts off the last component of
  a path, and there are as many steps as components;
* `FileSystem.find?_join_eq_some_iff` — a name below a path is an entry of its directory;
* `Settings.discover?_eq_some_iff`, `Settings.exists_ends` — what is found, and that the loop ends
  with it;
* `Settings.discover?_nearest` — **the search finds the settings file of the nearest directory**.
-/

import SchemaAudit.Proofs.Collection

set_option relaxedAutoImplicit false
set_option autoImplicit false

namespace SchemaAudit

/-! ### Above a path -/

namespace Path

/-- The path so many steps above a path, as far as its text goes. -/
def above? (p : Path) : ℕ → Option Path
  | 0 => some p
  | k + 1 => (p.above? k).bind parent?

theorem above?_succ (p : Path) (k : ℕ) :
    p.above? (k + 1) = p.parent?.bind fun q => q.above? k := by
  induction k with
  | zero => cases h : p.parent? <;> simp [above?, h]
  | succ k ih =>
      rw [above?, ih, Option.bind_assoc]
      rfl

/-- The number of components that can be cut off a path, which are all but the root. -/
def depth (p : Path) : ℕ := p.components.countP (· ≠ .root)

/-- A piece that leads nowhere where it stands. -/
def Idle (absolute : Bool) (above : List String) (piece : String) : Prop :=
  piece = "" ∨ (piece = "." ∧ (absolute = true ∨ above ≠ []))

/-- A piece at the end of a path makes the component that it makes anywhere, unless it is a dot that
is the whole text. -/
theorem components_concat {absolute : Bool} {above : List String} {piece : String}
    (h : piece ≠ "." ∨ absolute = true ∨ above ≠ []) :
    components ⟨absolute, above ++ [piece]⟩ =
      components ⟨absolute, above⟩ ++ (Component.ofPiece? piece).toList := by
  have hlast : [piece].filterMap Component.ofPiece? = (Component.ofPiece? piece).toList := by
    cases heq : Component.ofPiece? piece <;> simp [heq]
  have hstart : (if absolute then [Component.root]
      else if (above ++ [piece]).head? = some "." then [.here] else []) =
      if absolute then [.root] else if above.head? = some "." then [.here] else [] := by
    cases above with
    | nil =>
        cases absolute with
        | true => rfl
        | false => simpa using h
    | cons first above => rfl
  rw [components, components, List.filterMap_append, hlast, hstart, List.append_assoc]

theorem ofPiece?_ne_root {piece : String} : Component.ofPiece? piece ≠ some .root := by
  rw [Component.ofPiece?]
  split
  · simp
  · split <;> simp

/-- A piece that counts makes one component at the end of a path, which is not the root. -/
theorem exists_components_concat {absolute : Bool} {above : List String} {piece : String}
    (h : ¬Idle absolute above piece) :
    ∃ last ≠ Component.root, components ⟨absolute, above ++ [piece]⟩ =
      components ⟨absolute, above⟩ ++ [last] := by
  obtain ⟨hblank, hdot⟩ := not_or.1 h
  by_cases hpiece : piece = "."
  · obtain ⟨rfl, rfl⟩ : absolute = false ∧ above = [] := by simpa [hpiece] using hdot
    exact ⟨.here, by simp, by rw [hpiece]; decide⟩
  · obtain ⟨last, hlast⟩ : ∃ last, Component.ofPiece? piece = some last := by
      rw [Component.ofPiece?, if_neg (by simp [hblank, hpiece])]
      split <;> exact ⟨_, rfl⟩
    refine ⟨last, fun hroot => ofPiece?_ne_root (hroot ▸ hlast), ?_⟩
    rw [components_concat (.inl hpiece), hlast, Option.toList_some]

/-- Dropping pieces that lead nowhere keeps the components. -/
theorem components_dropIdle (absolute : Bool) (pieces : List String) :
    components ⟨absolute, (dropIdle absolute pieces).reverse⟩ =
      components ⟨absolute, pieces.reverse⟩ := by
  induction pieces with
  | nil => rfl
  | cons piece above ih =>
      rw [dropIdle]
      split
      · rename_i hidle
        have hnone : Component.ofPiece? piece = none := by
          rw [Component.ofPiece?, if_pos (hidle.imp_right And.left)]
        have hdot : piece ≠ "." ∨ absolute = true ∨ above.reverse ≠ [] := by
          rcases hidle with rfl | ⟨-, h⟩
          · exact .inl (by decide)
          · exact .inr (by simpa using h)
        rw [ih, List.reverse_cons, components_concat hdot, hnone, Option.toList_none,
          List.append_nil]
      · rfl

/-- What is left after dropping starts with a piece that counts. -/
theorem not_idle_of_dropIdle_eq_cons {absolute : Bool} {pieces above : List String} {piece : String}
    (h : dropIdle absolute pieces = piece :: above) : ¬Idle absolute above piece := by
  induction pieces with
  | nil => cases h
  | cons first rest ih =>
      rw [dropIdle] at h
      split at h
      · exact ih h
      · rename_i hcounts
        cases h
        exact hcounts

/-- **The parent of a path lacks its last component**, which is not the root. -/
theorem exists_components_of_parent? {p q : Path} (h : p.parent? = some q) :
    ∃ last ≠ Component.root, p.components = q.components ++ [last] := by
  rw [parent?] at h
  split at h
  · cases h
  · rename_i piece above heq
    cases h
    have hpiece : ¬Idle p.absolute above.reverse piece := by
      simpa [Idle] using not_idle_of_dropIdle_eq_cons heq
    obtain ⟨last, hlast, hconcat⟩ := exists_components_concat hpiece
    refine ⟨last, hlast, ?_⟩
    have hp := components_dropIdle p.absolute p.pieces.reverse
    rw [heq, List.reverse_cons, hconcat, List.reverse_reverse] at hp
    rw [← hp, components_dropIdle]

/-- A path without a parent has no component but the root. -/
theorem depth_eq_zero_of_parent? {p : Path} (h : p.parent? = none) : p.depth = 0 := by
  rw [parent?] at h
  split at h
  · rename_i heq
    have hp := components_dropIdle p.absolute p.pieces.reverse
    rw [heq, List.reverse_reverse] at hp
    rw [depth, ← hp]
    cases p.absolute <;> rfl
  · cases h

theorem depth_of_parent? {p q : Path} (h : p.parent? = some q) : p.depth = q.depth + 1 := by
  obtain ⟨last, hlast, hcomponents⟩ := exists_components_of_parent? h
  simp [depth, hcomponents, hlast]

/-- **Induction from a path to the paths above it**: what holds of a path as soon as it holds of its
parent, if it has one, holds of all paths. -/
theorem inductionOn {motive : Path → Prop} (p : Path)
    (step : ∀ p, (∀ q, p.parent? = some q → motive q) → motive p) : motive p := by
  induction h : p.depth generalizing p with
  | zero =>
      refine step p fun q hq => ?_
      rw [depth_of_parent? hq] at h
      cases h
  | succ n ih =>
      refine step p fun q hq => ih q ?_
      rw [depth_of_parent? hq] at h
      exact Nat.succ.inj h

/-- **There are as many paths above a path as it has components**, the root aside. -/
theorem exists_above?_iff {p : Path} {k : ℕ} : (∃ q, p.above? k = some q) ↔ k ≤ p.depth := by
  induction k generalizing p with
  | zero => simp [above?]
  | succ k ih =>
      rw [above?_succ]
      cases h : p.parent? with
      | none => simp [depth_eq_zero_of_parent? h]
      | some parent =>
          rw [depth_of_parent? h, Nat.add_le_add_iff_right, ← ih]
          rfl

/-- **The path so many steps above a path lacks as many components.** -/
theorem components_of_above? {p q : Path} {k : ℕ} (h : p.above? k = some q) :
    q.components = p.components.take (p.components.length - k) := by
  induction k generalizing p with
  | zero =>
      cases h
      simp
  | succ k ih =>
      rw [above?_succ] at h
      obtain ⟨parent, hparent, h⟩ := Option.bind_eq_some_iff.1 h
      obtain ⟨last, -, hcomponents⟩ := exists_components_of_parent? hparent
      rw [ih h, hcomponents, List.length_append, List.length_singleton, Nat.add_sub_add_right,
        List.take_append_of_le_length (Nat.sub_le _ _)]

end Path

/-! ### Directories that paths stand for -/

namespace FileSystem

/-- **An entry of the directory that a path stands for.** The pieces of the path lead to the
directory; a path without any, the empty one included, stands for the one where it starts. -/
def Holds (fs : FileSystem) (p : Path) (name : String) (entry : Entry) : Prop :=
  ∃ location entries, p.pieces.foldlM fs.step? (fs.origin p) = some location ∧
    fs.root.descend? location = some (.directory entries) ∧ List.lookup name entries = some entry

/-- The directory has a settings file. -/
def HasSettings (fs : FileSystem) (p : Path) : Prop :=
  ∃ content, fs.Holds p Settings.fileName (.file content)

/-- The directory is the root of a repository, which any entry of the right name shows. -/
def IsRepository (fs : FileSystem) (p : Path) : Prop :=
  ∃ entry, fs.Holds p Settings.repositoryMark entry

variable {fs : FileSystem} {p : Path} {name : String}

/-- A directory has at most one entry of a name. -/
theorem Holds.unique {entry entry' : Entry} (h : fs.Holds p name entry)
    (h' : fs.Holds p name entry') : entry = entry' := by
  obtain ⟨location, entries, hlocation, hat, hentry⟩ := h
  obtain ⟨location', entries', hlocation', hat', hentry'⟩ := h'
  cases hlocation.symm.trans hlocation'
  cases hat.symm.trans hat'
  exact Option.some.inj (hentry.symm.trans hentry')

/-- The pieces that count lead to a directory when all pieces do. -/
theorem foldlM_step?_pieces_iff {location : List String} {entries : List (String × Entry)}
    (hat : fs.root.descend? location = some (.directory entries)) :
    p.pieces.foldlM fs.step? (fs.origin p) = some location ↔
      p.base.foldlM fs.step? (fs.origin p) = some location := by
  refine ⟨foldlM_step?_base, fun h => ?_⟩
  obtain ⟨blank, hblank, hpieces⟩ := p.pieces_eq
  rw [hpieces, List.foldlM_append, h]
  simp only [List.mem_cons, List.not_mem_nil, or_false] at hblank
  rcases hblank with rfl | rfl
  · rfl
  · -- a blank piece leads from a directory to itself
    simp [step?_blank, isDirectoryAt, hat, Entry.isDirectory]

/-- **A name below a path is an entry of the directory that the path stands for.** -/
theorem find?_join_eq_some_iff (hname : Path.IsName name) {entry : Entry} :
    fs.find? (p.join name) = some entry ↔ fs.Holds p name entry := by
  have hfind : fs.find? (p.join name) =
      (p.base.foldlM fs.step? (fs.origin p)).bind fun here =>
        fs.root.descend? (here ++ [name]) := by
    rw [find?, Path.join_eq, locate?, if_neg (by simp [Path.isEmpty, hname.1]),
      List.foldlM_append]
    simp only [List.foldlM_cons, List.foldlM_nil, origin, bind_pure, Option.bind_eq_bind,
      Option.bind_assoc]
    refine congrArg (Option.bind _) (funext fun here => ?_)
    rw [step?_name here hname, hasAt]
    cases hat : fs.root.descend? (here ++ [name]) with
    | none => rfl
    | some entry => exact hat
  rw [hfind, Option.bind_eq_some_iff, Holds]
  constructor
  · rintro ⟨here, hhere, hentry⟩
    rw [Entry.descend?_concat] at hentry
    obtain ⟨_ | entries, hat, hentry⟩ := Option.bind_eq_some_iff.1 hentry
    · cases hentry
    · exact ⟨here, entries, (foldlM_step?_pieces_iff hat).2 hhere, hat, hentry⟩
  · rintro ⟨here, entries, hhere, hat, hentry⟩
    refine ⟨here, (foldlM_step?_pieces_iff hat).1 hhere, ?_⟩
    rw [Entry.descend?_concat, hat]
    exact hentry

theorem isFile_join_iff :
    fs.isFile (p.join Settings.fileName) = true ↔ fs.HasSettings p := by
  simp only [isFile_iff, HasSettings, find?_join_eq_some_iff Settings.fileName_isName]

theorem has_join_iff : fs.has (p.join Settings.repositoryMark) = true ↔ fs.IsRepository p := by
  simp only [has, Option.isSome_iff_exists, IsRepository,
    find?_join_eq_some_iff Settings.repositoryMark_isName]

end FileSystem

/-! ### The search -/

namespace Settings

open FileSystem (HasSettings IsRepository)

variable {fs : FileSystem} {start : Path} {k : ℕ}

/-- **The search as a loop.** A round takes up a directory, and the loop ends, after so many rounds
and with this result, where a directory has a settings file or is the root of a repository or there
is none left. -/
inductive Ends (fs : FileSystem) : Option Path → ℕ → Option Path → Prop
  | top : Ends fs none 0 none
  | found {p : Path} : fs.HasSettings p → Ends fs (some p) 1 (some (p.join fileName))
  | boundary {p : Path} : ¬fs.HasSettings p → fs.IsRepository p → Ends fs (some p) 1 none
  | onwards {p : Path} {rounds : ℕ} {result : Option Path} : ¬fs.HasSettings p →
      ¬fs.IsRepository p → Ends fs p.parent? rounds result → Ends fs (some p) (rounds + 1) result

/-- None of the directories before the one so many steps above a path ends the search. -/
def Passes (fs : FileSystem) (start : Path) (k : ℕ) : Prop :=
  ∀ j < k, ∀ nearer, start.above? j = some nearer →
    ¬fs.HasSettings nearer ∧ ¬fs.IsRepository nearer

/-- **One round of the search.** -/
theorem discover?_eq (fs : FileSystem) (p : Path) :
    discover? fs p =
      if fs.isFile (p.join fileName) then some (p.join fileName)
      else if fs.has (p.join repositoryMark) then none
      else p.parent?.bind (discover? fs) := by
  rw [discover?, Path.ancestors_eq, nearest?]
  cases p.parent? <;> rfl

theorem discover?_of_hasSettings (h : fs.HasSettings start) :
    discover? fs start = some (start.join fileName) := by
  rw [discover?_eq, if_pos (FileSystem.isFile_join_iff.2 h)]

theorem discover?_of_isRepository (h : ¬fs.HasSettings start) (hmark : fs.IsRepository start) :
    discover? fs start = none := by
  rw [discover?_eq, if_neg (FileSystem.isFile_join_iff.not.2 h),
    if_pos (FileSystem.has_join_iff.2 hmark)]

theorem discover?_of_neither (h : ¬fs.HasSettings start) (hmark : ¬fs.IsRepository start) :
    discover? fs start = start.parent?.bind (discover? fs) := by
  rw [discover?_eq, if_neg (FileSystem.isFile_join_iff.not.2 h),
    if_neg (FileSystem.has_join_iff.not.2 hmark)]

/-- The loop ends in one way. -/
theorem Ends.unique {p? : Option Path} {rounds rounds' : ℕ} {result result' : Option Path}
    (h : Ends fs p? rounds result) (h' : Ends fs p? rounds' result') :
    rounds = rounds' ∧ result = result' := by
  induction h generalizing rounds' with
  | top =>
      cases h'
      exact ⟨rfl, rfl⟩
  | found hsettings =>
      cases h' with
      | found => exact ⟨rfl, rfl⟩
      | boundary hnone => exact absurd hsettings hnone
      | onwards hnone => exact absurd hsettings hnone
  | boundary hnone hmark =>
      cases h' with
      | found hsettings => exact absurd hsettings hnone
      | boundary => exact ⟨rfl, rfl⟩
      | onwards _ hunmarked => exact absurd hmark hunmarked
  | onwards hnone hunmarked _ ih =>
      cases h' with
      | found hsettings => exact absurd hsettings hnone
      | boundary _ hmark => exact absurd hmark hunmarked
      | onwards _ _ h' =>
          obtain ⟨hrounds, hresult⟩ := ih h'
          exact ⟨congrArg (· + 1) hrounds, hresult⟩

/-- **The loop ends**, at the latest after the last path above the start, and with what is found. -/
theorem exists_ends (fs : FileSystem) (start : Path) :
    ∃ rounds ≤ start.depth + 1, Ends fs (some start) rounds (discover? fs start) := by
  induction start using Path.inductionOn with
  | step p ih =>
      by_cases hsettings : fs.HasSettings p
      · exact ⟨1, Nat.le_add_left .., discover?_of_hasSettings hsettings ▸ .found hsettings⟩
      · by_cases hmark : fs.IsRepository p
        · exact ⟨1, Nat.le_add_left ..,
            discover?_of_isRepository hsettings hmark ▸ .boundary hsettings hmark⟩
        · rw [discover?_of_neither hsettings hmark]
          cases hparent : p.parent? with
          | none =>
              refine ⟨1, Nat.le_add_left .., .onwards hsettings hmark ?_⟩
              rw [hparent]
              exact .top
          | some q =>
              obtain ⟨rounds, hrounds, hends⟩ := ih q hparent
              refine ⟨rounds + 1, ?_, .onwards hsettings hmark ?_⟩
              · rw [Path.depth_of_parent? hparent]
                exact Nat.succ_le_succ hrounds
              · rw [hparent]
                exact hends

/-- A search passes the directories above its start after the start itself. -/
theorem passes_succ_iff :
    Passes fs start (k + 1) ↔ (¬fs.HasSettings start ∧ ¬fs.IsRepository start) ∧
      ∀ q, start.parent? = some q → Passes fs q k := by
  constructor
  · intro h
    refine ⟨h 0 (Nat.succ_pos k) start rfl, fun q hq j hj nearer hnearer => ?_⟩
    refine h (j + 1) (Nat.succ_lt_succ hj) nearer ?_
    rw [Path.above?_succ, hq]
    exact hnearer
  · rintro ⟨hstart, habove⟩ (_ | j) hj nearer hnearer
    · cases hnearer
      exact hstart
    · rw [Path.above?_succ] at hnearer
      obtain ⟨q, hq, hnearer⟩ := Option.bind_eq_some_iff.1 hnearer
      exact habove q hq j (Nat.lt_of_succ_lt_succ hj) nearer hnearer

/-- **A search that passes some directories goes on from the next one.** -/
theorem discover?_of_passes (h : Passes fs start k) :
    discover? fs start = (start.above? k).bind (discover? fs) := by
  induction k with
  | zero => rfl
  | succ k ih =>
      rw [ih fun j hj => h j (Nat.lt_succ_of_lt hj), Path.above?, Option.bind_assoc]
      cases hat : start.above? k with
      | none => rfl
      | some directory =>
          obtain ⟨hsettings, hmark⟩ := h k (Nat.lt_succ_self k) directory hat
          exact discover?_of_neither hsettings hmark

/-- What is found stands in a directory above the start, and the directories before it are
passed. -/
theorem exists_above?_of_discover? {c : Path} (h : discover? fs start = some c) :
    ∃ k directory, start.above? k = some directory ∧ c = directory.join fileName ∧
      fs.HasSettings directory ∧ Passes fs start k := by
  induction start using Path.inductionOn with
  | step p ih =>
      by_cases hsettings : fs.HasSettings p
      · rw [discover?_of_hasSettings hsettings] at h
        exact ⟨0, p, rfl, (Option.some.inj h).symm, hsettings, by simp [Passes]⟩
      · by_cases hmark : fs.IsRepository p
        · rw [discover?_of_isRepository hsettings hmark] at h
          cases h
        · rw [discover?_of_neither hsettings hmark] at h
          obtain ⟨q, hq, h⟩ := Option.bind_eq_some_iff.1 h
          obtain ⟨k, directory, hat, hc, hfound, hpasses⟩ := ih q hq h
          refine ⟨k + 1, directory, ?_, hc, hfound, passes_succ_iff.2 ⟨⟨hsettings, hmark⟩, ?_⟩⟩
          · rw [Path.above?_succ, hq]
            exact hat
          · rintro q' hq'
            cases hq.symm.trans hq'
            exact hpasses

/-- **What a search finds.** -/
theorem discover?_eq_some_iff {c : Path} :
    discover? fs start = some c ↔
      ∃ k directory, start.above? k = some directory ∧ c = directory.join fileName ∧
        fs.HasSettings directory ∧ Passes fs start k := by
  refine ⟨exists_above?_of_discover?, ?_⟩
  rintro ⟨k, directory, hat, rfl, hsettings, hpasses⟩
  rw [discover?_of_passes hpasses, hat]
  exact discover?_of_hasSettings hsettings

/-- Nothing is found beyond the root of a repository. -/
theorem discover?_eq_none_of_isRepository {directory : Path}
    (hat : start.above? k = some directory) (hmark : fs.IsRepository directory)
    (hnone : ∀ j ≤ k, ∀ nearer, start.above? j = some nearer → ¬fs.HasSettings nearer) :
    discover? fs start = none := by
  by_contra hfound
  obtain ⟨c, hc⟩ := Option.ne_none_iff_exists'.1 hfound
  obtain ⟨n, other, hother, -, hsettings, hpasses⟩ := discover?_eq_some_iff.1 hc
  rcases Nat.lt_or_ge k n with hk | hk
  · exact (hpasses k hk directory hat).2 hmark
  · exact hnone n hk other hother hsettings

/-- **The search finds the settings file of the nearest directory.** The paths above the start lack
one component after the other, and the search ends. What it finds is the name of a settings file
below the first of these paths, from the start upwards, where there is a file of that name, unless a
path before it stands for the root of a repository. -/
theorem discover?_nearest (fs : FileSystem) (start : Path) :
    (∀ k, k ≤ start.depth ↔ ∃ directory, start.above? k = some directory ∧
      directory.components = start.components.take (start.components.length - k)) ∧
    (∃ rounds ≤ start.depth + 1, ∀ n result,
      Ends fs (some start) n result ↔ n = rounds ∧ result = discover? fs start) ∧
    (∀ c, discover? fs start = some c ↔
      ∃ k directory, start.above? k = some directory ∧ c = directory.join fileName ∧
        fs.isFile c = true ∧ Passes fs start k) ∧
    -- a directory that has both is accepted
    (∀ k directory, start.above? k = some directory → Passes fs start k →
      fs.HasSettings directory → fs.IsRepository directory →
        discover? fs start = some (directory.join fileName)) ∧
    -- a directory of the name is passed over
    (∀ k directory entries, start.above? k = some directory → Passes fs start k →
      fs.Holds directory fileName (.directory entries) → ¬fs.IsRepository directory →
        discover? fs start = (start.above? (k + 1)).bind (discover? fs)) ∧
    -- nothing is found beyond the root of a repository
    (∀ k directory, start.above? k = some directory → fs.IsRepository directory →
      (∀ j ≤ k, ∀ nearer, start.above? j = some nearer → ¬fs.HasSettings nearer) →
        discover? fs start = none) := by
  refine ⟨fun k => ?_, ?_, fun c => ?_, ?_, ?_, ?_⟩
  · rw [← Path.exists_above?_iff]
    exact exists_congr fun directory => (and_iff_left_of_imp Path.components_of_above?).symm
  · obtain ⟨rounds, hrounds, hends⟩ := exists_ends fs start
    refine ⟨rounds, hrounds, fun n result => ⟨fun h => h.unique hends, ?_⟩⟩
    rintro ⟨rfl, rfl⟩
    exact hends
  · rw [discover?_eq_some_iff]
    refine exists_congr fun k => exists_congr fun directory => and_congr_right fun _ =>
      and_congr_right ?_
    rintro rfl
    rw [FileSystem.isFile_join_iff]
  · intro k directory hat hpasses hsettings _
    exact discover?_eq_some_iff.2 ⟨k, directory, hat, rfl, hsettings, hpasses⟩
  · intro k directory entries hat hpasses hdirectory hmark
    refine discover?_of_passes fun j hj nearer hnearer => ?_
    rcases Nat.lt_succ_iff_lt_or_eq.1 hj with hj | rfl
    · exact hpasses j hj nearer hnearer
    · cases hat.symm.trans hnearer
      refine ⟨?_, hmark⟩
      rintro ⟨content, hfile⟩
      cases hdirectory.unique hfile
  · intro k directory hat hmark hnone
    exact discover?_eq_none_of_isRepository hat hmark hnone

example :
    let fs : FileSystem :=
      ⟨.directory [("a", .directory [(fileName, .directory []), ("b", .directory [])]),
        (fileName, .file .empty), (repositoryMark, .file .empty)], []⟩
    discover? fs (.ofText "a/b/") = some (.ofText "schemalint.toml") ∧
      discover? fs (.ofText "/a/b") = some (.ofText "/schemalint.toml") := by
  decide +kernel

end Settings

end SchemaAudit
