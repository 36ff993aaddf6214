/-
**Paths.**

A path is text: pieces between slashes, some of which are blank or a dot and lead nowhere. Paths
are joined and cut without a look at what they name, so that the parents of `a/b` are `a` and the
empty path, and the parent of `.` is the empty path.

* `Path`, `Path.ofText`, `Path.text` — a path and its text;
* `Path.text_ofText` — the text is kept as it was written;
* `Path.join` — a name below a path;
* `Path.parent?`, `Path.ancestors` — the path without its last piece, and so on upwards.
-/

set_option relaxedAutoImplicit false
set_option autoImplicit false

namespace SchemaAudit

/-- A path. -/
structure Path where
  /-- Whether the path starts with a slash. -/
  absolute : Bool
  /-- The pieces between slashes, that first one aside. -/
  pieces : List String
deriving DecidableEq, Inhabited

namespace Path

/-! ### Text -/

/-- The pieces between slashes. -/
def split : List Char → List (List Char)
  | [] => [[]]
  | c :: cs =>
    if c = '/' then [] :: split cs
    else
      match split cs with
      | [] => [[c]]
      | piece :: rest => (c :: piece) :: rest

/-- The pieces of a path that does not start with a slash. -/
def piecesOf (cs : List Char) : List String := (split cs).map String.ofList

/-- The path of a text. -/
def ofText (text : String) : Path :=
  match text.toList with
  | '/' :: cs => ⟨true, piecesOf cs⟩
  | cs => ⟨false, piecesOf cs⟩

/-- Pieces with slashes between them. -/
def joinPieces : List String → List Char
  | [] => []
  | [piece] => piece.toList
  | piece :: rest => piece.toList ++ '/' :: joinPieces rest

/-- The text of a path. -/
def text (p : Path) : String :=
  String.ofList ((if p.absolute then ['/'] else []) ++ joinPieces p.pieces)

theorem split_ne_nil (cs : List Char) : split cs ≠ [] := by
  cases cs with
  | nil => simp [split]
  | cons c cs =>
    simp only [split]
    split
    · simp
    · split <;> simp

theorem joinPieces_cons (piece : String) {rest : List String} (h : rest ≠ []) :
    joinPieces (piece :: rest) = piece.toList ++ '/' :: joinPieces rest := by
  cases rest with
  | nil => exact absurd rfl h
  | cons next rest => rfl

/-- A character at the front of a text goes to the front of its first piece. -/
theorem joinPieces_cons_char (c : Char) (piece : List Char) (rest : List (List Char)) :
    joinPieces (((c :: piece) :: rest).map String.ofList) =
      c :: joinPieces ((piece :: rest).map String.ofList) := by
  cases rest <;> simp [joinPieces]

/-- What was split is joined again. -/
theorem joinPieces_piecesOf (cs : List Char) : joinPieces (piecesOf cs) = cs := by
  induction cs with
  | nil => simp [piecesOf, split, joinPieces]
  | cons c cs ih =>
    simp only [piecesOf, split]
    split
    · rename_i hc
      have hne : (split cs).map String.ofList ≠ [] := by
        simpa using split_ne_nil cs
      rw [List.map_cons, joinPieces_cons _ hne]
      simp only [piecesOf] at ih
      simp [ih, hc]
    · split
      · rename_i heq
        exact absurd heq (split_ne_nil cs)
      · rename_i piece rest heq
        rw [joinPieces_cons_char, ← heq]
        exact congrArg (c :: ·) ih

/-- The text of a path is the text from which it was made. -/
theorem text_ofText (t : String) : (ofText t).text = t := by
  simp only [ofText]
  split
  · rename_i cs heq
    simp [text, joinPieces_piecesOf, ← heq]
  · simp [text, joinPieces_piecesOf]

/-- Whether the text is empty. Such a path names nothing. -/
def isEmpty (p : Path) : Bool := !p.absolute && p.pieces.all (· == "")

/-! ### Below a path -/

/-- A name below a path. A slash at the end of the path is not doubled. -/
def join (p : Path) (name : String) : Path :=
  if p.pieces.getLast? = some "" then { p with pieces := p.pieces.dropLast ++ [name] }
  else { p with pieces := p.pieces ++ [name] }

/-! ### Above a path -/

/-- Drops pieces that lead nowhere from a list of pieces that is given last first. A dot counts
only at the start of a path that does not start with a slash. -/
def dropIdle (absolute : Bool) : List String → List String
  | [] => []
  | piece :: above =>
    if piece = "" ∨ (piece = "." ∧ (absolute ∨ above ≠ [])) then dropIdle absolute above
    else piece :: above

/-- The path without its last piece, if it has one. -/
def parent? (p : Path) : Option Path :=
  match dropIdle p.absolute p.pieces.reverse with
  | [] => none
  | _ :: above => some { p with pieces := (dropIdle p.absolute above).reverse }

theorem length_dropIdle_le (absolute : Bool) (pieces : List String) :
    (dropIdle absolute pieces).length ≤ pieces.length := by
  induction pieces with
  | nil => simp [dropIdle]
  | cons piece above ih =>
    simp only [dropIdle]
    split
    · exact Nat.le_succ_of_le ih
    · exact Nat.le_refl _

/-- A parent has fewer pieces. -/
theorem length_parent?_lt {p q : Path} (h : p.parent? = some q) :
    q.pieces.length < p.pieces.length := by
  have hle := length_dropIdle_le p.absolute p.pieces.reverse
  rw [parent?] at h
  split at h
  · simp at h
  · rename_i piece above heq
    have hle' := length_dropIdle_le p.absolute above
    obtain rfl := Option.some.inj h
    simp only [heq, List.length_cons, List.length_reverse] at hle ⊢
    omega

/-- The path, its parent, the parent of that, and so on. -/
def ancestors (p : Path) : List Path :=
  p :: match h : p.parent? with
    | none => []
    | some q =>
      have := length_parent?_lt h
      q.ancestors
termination_by p.pieces.length

example : ((ofText "./a//b/.").parent?.map text) = some "./a" := by decide

example : ((ofText ".").parent?.map text) = some "" ∧ (ofText "").parent? = none := by decide

example : ((ofText "a/").join "b").text = "a/b" ∧ ((ofText "").join "b").text = "b" := by decide

end Path

end SchemaAudit
