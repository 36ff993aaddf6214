/-
**Reading pointers.**

The notation of JSON pointers (RFC 6901) has its own rules for reading: a text is empty or starts
with a slash, keys stand between slashes, `~0` and `~1` stand for `~` and `/`, and the items of an
array go by their indices in decimals, without leading zeros.  This module states these rules and
proves that the text of a pointer is read as this pointer, whatever the keys are: they may be empty
or contain `/` and `~`.

Main definitions:

* `Pointer.ofText?` — the pointer that a text writes;
* `Value.resolve?`, `Value.at?` — **the part of a value to which a pointer, or a text, leads**.

Main results:

* `Pointer.ofText?_text` — the text of a pointer is read as this pointer;
* `Pointer.text_eq_slash_iff` — which pointers are written as a slash.
-/

import Mathlib
import SchemaAudit.Files.Path
import SchemaAudit.Schema.Decode

set_option relaxedAutoImplicit false
set_option autoImplicit false

namespace SchemaAudit

open Json (Value)

/-! ### The rules -/

/-- The key that a piece of a text writes. A `~` stands before `0` or `1` only. -/
def Pointer.unescape? : List Char → Option (List Char)
  | [] => some []
  | '~' :: '0' :: rest => (unescape? rest).map ('~' :: ·)
  | '~' :: '1' :: rest => (unescape? rest).map ('/' :: ·)
  | c :: rest => if c = '~' then none else (unescape? rest).map (c :: ·)

/-- The pointer that a text writes: the empty one, or the keys after each slash. -/
def Pointer.ofText? (text : String) : Option Pointer :=
  match text.toList with
  | [] => some []
  | '/' :: cs => (Path.split cs).mapM fun piece => (unescape? piece).map String.ofList
  | _ => none

/-- The index that a step writes in decimals, without leading zeros. -/
def Pointer.index? (step : String) : Option Nat :=
  step.toNat?.filter fun n => toString n = step

/-- The part of a value to which one step leads. -/
def Json.Value.step? (value : Value) (step : String) : Option Value :=
  match value with
  | .object members => List.lookup step members
  | .array items => Pointer.index? step >>= fun index => items[index]?
  | _ => none

/-- **The part of a value to which a pointer leads.** -/
def Json.Value.resolve? (value : Value) (pointer : Pointer) : Option Value :=
  pointer.foldlM Value.step? value

/-- The part of a value to which the text of a pointer leads. -/
def Json.Value.at? (value : Value) (text : String) : Option Value :=
  Pointer.ofText? text >>= value.resolve?

/-! ### Steps -/

theorem Json.Value.resolve?_cons (value : Value) (step : String) (pointer : Pointer) :
    value.resolve? (step :: pointer) = value.step? step >>= fun part => part.resolve? pointer :=
  List.foldlM_cons

namespace Pointer

theorem index?_toString (n : Nat) : index? (toString n) = some n := by
  rw [index?, Nat.toString_eq_repr, Nat.toNat?_repr, Option.filter_some]
  simp

/-! ### Keys and their notation -/

theorem escape_of_ne {c : Char} (htilde : c ≠ '~') (hslash : c ≠ '/') : escape c = [c] := by
  rw [escape]
  · exact htilde
  · exact hslash

/-- What was escaped is read back. -/
theorem unescape?_flatMap_escape (cs : List Char) :
    unescape? (cs.flatMap escape) = some cs := by
  induction cs with
  | nil => rfl
  | cons c rest ih =>
      rw [List.flatMap_cons]
      by_cases htilde : c = '~'
      · subst htilde
        simp [escape, unescape?, ih]
      · by_cases hslash : c = '/'
        · subst hslash
          simp [escape, unescape?, ih]
        · rw [escape_of_ne htilde hslash, List.singleton_append, unescape?, if_neg htilde, ih]
          · rfl
          · simp [htilde]
          · simp [htilde]

theorem slash_notMem_flatMap_escape (cs : List Char) : '/' ∉ cs.flatMap escape := by
  intro h
  obtain ⟨c, -, hc⟩ := List.mem_flatMap.1 h
  by_cases htilde : c = '~'
  · subst htilde
    simp [escape] at hc
  · by_cases hslash : c = '/'
    · subst hslash
      simp [escape] at hc
    · rw [escape_of_ne htilde hslash] at hc
      exact hslash (List.mem_singleton.1 hc).symm

/-! ### Whole pointers -/

theorem split_append_slash {cs : List Char} (h : '/' ∉ cs) (rest : List Char) :
    Path.split (cs ++ '/' :: rest) = cs :: Path.split rest := by
  induction cs with
  | nil => simp [Path.split]
  | cons c cs ih =>
      obtain ⟨hc, hcs⟩ := not_or.1 (mt List.mem_cons.2 h)
      simp [Path.split, Ne.symm hc, ih hcs]

theorem split_of_notMem {cs : List Char} (h : '/' ∉ cs) : Path.split cs = [cs] := by
  induction cs with
  | nil => rfl
  | cons c cs ih =>
      obtain ⟨hc, hcs⟩ := not_or.1 (mt List.mem_cons.2 h)
      simp [Path.split, Ne.symm hc, ih hcs]

/-- The pieces between the slashes of a pointer's text are its keys, escaped. -/
theorem split_segments (step : String) (rest : Pointer) :
    Path.split (step.toList.flatMap escape ++ rest.flatMap segment) =
      (step :: rest).map fun key => key.toList.flatMap escape := by
  induction rest generalizing step with
  | nil =>
      rw [List.flatMap_nil, List.append_nil]
      exact split_of_notMem (slash_notMem_flatMap_escape _)
  | cons next rest ih =>
      rw [List.flatMap_cons, segment, List.cons_append,
        split_append_slash (slash_notMem_flatMap_escape _), ih]
      rfl

/-- **The text of a pointer is read as this pointer**, whatever its keys are. Only the empty pointer
has another notation. -/
theorem ofText?_text {pointer : Pointer} (h : pointer ≠ []) :
    ofText? pointer.text = some pointer := by
  cases pointer with
  | nil => exact absurd rfl h
  | cons step rest =>
      have keys : ∀ steps : Pointer, (steps.map fun key => key.toList.flatMap escape).mapM
          (fun piece => (unescape? piece).map String.ofList) = some steps := by
        intro steps
        induction steps with
        | nil => rfl
        | cons key steps ih =>
            rw [List.map_cons, List.mapM_cons, ih, unescape?_flatMap_escape]
            simp
      rw [text, ofText?, String.toList_ofList, List.flatMap_cons, segment, List.cons_append]
      · exact (congrArg _ (split_segments step rest)).trans (keys _)
      · exact h

/-- A slash writes the empty pointer, and the pointer to an empty key. -/
theorem text_eq_slash_iff {pointer : Pointer} :
    pointer.text = "/" ↔ pointer = [] ∨ pointer = [""] := by
  constructor
  · intro h
    cases pointer with
    | nil => exact .inl rfl
    | cons step rest =>
        have hread := ofText?_text (List.cons_ne_nil step rest)
        rw [h] at hread
        exact .inr (Option.some.inj hread).symm
  · rintro (rfl | rfl) <;> rfl

end Pointer

end SchemaAudit
