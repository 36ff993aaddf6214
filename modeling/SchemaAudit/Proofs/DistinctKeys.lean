/-
**No key occurs twice.**

An object of a JSON value is a list of members.  In the values that are read from a text no object,
at any depth, has two members with one key: a repeated key keeps its position and takes the new
value.  The machine that reads keeps this up from token to token, in what it has completed and in
what is still open.

Main definitions:

* `Value.KeysDistinct` — **no object within a value has two members with one key**;
* `Value.member?` — what an object holds under a key;
* `Frame.KeysDistinct`, `State.KeysDistinct` — the same for what a reader holds.

Main results:

* `Scanner.run_invariant` — what each token keeps up holds after a whole text;
* `Value.keysDistinct_of_ofText?` — **in what is read, keys are distinct**.
-/

import Mathlib
import SchemaAudit.Json.Reader

set_option relaxedAutoImplicit false
set_option autoImplicit false

namespace SchemaAudit

/-! ### Runs that keep an invariant -/

/-- What every step keeps up, on items of some kind, holds after a whole fold. -/
theorem foldlM_invariant {α β : Type} {step : β → α → Option β} {P : β → Prop} {Q : α → Prop}
    (hstep : ∀ b a b', P b → Q a → step b a = some b' → P b') {items : List α} {s last : β}
    (hs : P s) (hitems : ∀ a ∈ items, Q a) (h : items.foldlM step s = some last) : P last := by
  induction items generalizing s with
  | nil =>
      cases h
      exact hs
  | cons a rest ih =>
      rw [List.foldlM_cons] at h
      obtain ⟨next, hnext, h⟩ := Option.bind_eq_some_iff.1 h
      exact ih (hstep _ _ _ hs (hitems a List.mem_cons_self) hnext)
        (fun b hb => hitems b (List.mem_cons_of_mem _ hb)) h

/-- **What each token keeps up holds after a whole text**, if the automaton completes only tokens of
some kind. -/
theorem Scanner.run_invariant {μ τ σ : Type} (scanner : Scanner μ τ σ) {P : σ → Prop}
    {Q : τ → Prop}
    (step : ∀ mode c tokens mode', scanner.step mode c = some (tokens, mode') → ∀ t ∈ tokens, Q t)
    (finish : ∀ mode tokens, scanner.finish mode = some tokens → ∀ t ∈ tokens, Q t)
    (drive : ∀ s t s', P s → Q t → scanner.drive s t = some s' → P s') {mode : μ} {state last : σ}
    (hstate : P state) {text : List Char} (h : scanner.run (mode, state) text = some last) :
    P last := by
  obtain ⟨⟨mode', middle⟩, hmiddle, h⟩ := Option.bind_eq_some_iff.1 h
  have invariant : P middle := by
    refine foldlM_invariant (P := fun position : μ × σ => P position.2) (Q := fun _ => True) ?_
      (s := (mode, state)) hstate (fun _ _ => trivial) hmiddle
    intro position c position' hposition _ h
    obtain ⟨⟨tokens, next⟩, htokens, h⟩ := Option.bind_eq_some_iff.1 h
    obtain ⟨state', hstate', h⟩ := Option.bind_eq_some_iff.1 h
    cases h
    exact foldlM_invariant drive hposition (step _ _ _ _ htokens) hstate'
  obtain ⟨tokens, htokens, h⟩ := Option.bind_eq_some_iff.1 h
  exact foldlM_invariant drive invariant (finish _ _ htokens) h

namespace Json

/-! ### Values with distinct keys -/

/-- **No object within the value has two members with one key.** -/
inductive Value.KeysDistinct : Value → Prop
  | null : KeysDistinct .null
  | bool (value : Bool) : KeysDistinct (.bool value)
  | number (value : Number) : KeysDistinct (.number value)
  | string (text : String) : KeysDistinct (.string text)
  | array {items : List Value} (items_distinct : ∀ item ∈ items, KeysDistinct item) :
      KeysDistinct (.array items)
  | object {members : List (String × Value)} (keys : (members.map Prod.fst).Nodup)
      (values : ∀ m ∈ members, KeysDistinct m.2) : KeysDistinct (.object members)

namespace Value

@[simp] theorem keysDistinct_null : null.KeysDistinct := .null

@[simp] theorem keysDistinct_bool (value : Bool) : (bool value).KeysDistinct := .bool value

@[simp] theorem keysDistinct_number (value : Number) : (number value).KeysDistinct := .number value

@[simp] theorem keysDistinct_string (text : String) : (string text).KeysDistinct := .string text

@[simp] theorem keysDistinct_array_iff {items : List Value} :
    (array items).KeysDistinct ↔ ∀ item ∈ items, item.KeysDistinct := by
  refine ⟨fun h => ?_, .array⟩
  cases h with
  | array items_distinct => exact items_distinct

@[simp] theorem keysDistinct_object_iff {members : Members} :
    (object members).KeysDistinct ↔
      (members.map Prod.fst).Nodup ∧ ∀ m ∈ members, m.2.KeysDistinct := by
  refine ⟨fun h => ?_, fun ⟨keys, values⟩ => .object keys values⟩
  cases h with
  | object keys values => exact ⟨keys, values⟩

/-- What an object holds under a key. -/
def member? (key : String) : Value → Option Value
  | .object members => List.lookup key members
  | _ => none

theorem KeysDistinct.of_member? {value part : Value} (h : value.KeysDistinct) {key : String}
    (hpart : value.member? key = some part) : part.KeysDistinct := by
  cases value with
  | object members =>
      exact (keysDistinct_object_iff.1 h).2 _ (Record.mem_of_lookup_eq_some hpart)
  | _ => cases hpart

end Value

/-! ### The reader -/

theorem mem_put {α : Type} {m : String × α} {name : String} {value : α} {r : Record α}
    (h : m ∈ r.put name value) : m = (name, value) ∨ m ∈ r := by
  induction r with
  | nil => exact .inl (List.mem_singleton.1 h)
  | cons head rest ih =>
      obtain ⟨k, v⟩ := head
      rw [Record.put] at h
      split at h
      · rename_i hk
        subst hk
        exact (List.mem_cons.1 h).imp_right (List.mem_cons_of_mem _)
      · rcases List.mem_cons.1 h with rfl | h
        · exact .inr List.mem_cons_self
        · exact (ih h).imp_right (List.mem_cons_of_mem _)

theorem nodup_keys_put {α : Type} {r : Record α} (h : (r.map Prod.fst).Nodup) (name : String)
    (value : α) : ((r.put name value).map Prod.fst).Nodup := by
  induction r with
  | nil => simp [Record.put]
  | cons head rest ih =>
      obtain ⟨k, v⟩ := head
      have hrest := List.nodup_cons.1 h
      rw [Record.put]
      split
      · exact h
      · rename_i hk
        refine List.nodup_cons.2 ⟨fun hmem => ?_, ih hrest.2⟩
        obtain ⟨m, hm, hkey⟩ := List.mem_map.1 hmem
        rcases mem_put hm with rfl | hm
        · exact hk hkey.symm
        · exact hrest.1 (List.mem_map.2 ⟨m, hm, hkey⟩)

/-- Setting a member leaves the keys of an object distinct. -/
theorem Value.KeysDistinct.put {members : Members} {value : Value}
    (h : (Value.object members).KeysDistinct) (hvalue : value.KeysDistinct) (name : String) :
    (Value.object (Record.put name value members)).KeysDistinct := by
  obtain ⟨keys, values⟩ := keysDistinct_object_iff.1 h
  refine .object (nodup_keys_put keys name value) fun m hm => ?_
  rcases mem_put hm with rfl | hm
  · exact hvalue
  · exact values m hm

/-- The keys are distinct in what an open container holds. -/
def Frame.KeysDistinct : Frame → Prop
  | .array items => ∀ item ∈ items, item.KeysDistinct
  | .object members _ => (Value.object members).KeysDistinct

/-- The keys are distinct in all that a reader holds. -/
def State.KeysDistinct : State → Prop
  | .expectValue stack | .expectItem stack => ∀ frame ∈ stack, frame.KeysDistinct
  | .expectKey _ members stack | .expectColon members _ stack =>
    (Value.object members).KeysDistinct ∧ ∀ frame ∈ stack, frame.KeysDistinct
  | .complete value stack => value.KeysDistinct ∧ ∀ frame ∈ stack, frame.KeysDistinct

/-- The keys are distinct in the value of a word. -/
def Token.KeysDistinct : Token → Prop
  | .word value => value.KeysDistinct
  | _ => True

theorem Value.keysDistinct_of_ofWord? {cs : List Char} {value : Value}
    (h : Value.ofWord? cs = some value) : value.KeysDistinct := by
  unfold Value.ofWord? at h
  split at h
  · cases h
    exact .null
  · cases h
    exact .bool true
  · cases h
    exact .bool false
  · obtain ⟨n, -, rfl⟩ := Option.map_eq_some_iff.1 h
    exact .number n

/-- No word begins and ends with one character. -/
theorem Mode.keysDistinct_of_start {c : Char} {tokens : List Token} {mode : Mode}
    (h : Mode.start c = some (tokens, mode)) : ∀ t ∈ tokens, t.KeysDistinct := by
  have marks : tokens ⊆
      [.openBrace, .closeBrace, .openBracket, .closeBracket, .comma, .colon] := by
    unfold Mode.start at h
    split at h
    case h_8 =>
        split at h
        · cases h
          simp
        · split at h
          · cases h
            simp
          · cases h
    all_goals
      cases h
      simp
  intro t ht
  have := marks ht
  simp only [List.mem_cons, List.not_mem_nil, or_false] at this
  rcases this with rfl | rfl | rfl | rfl | rfl | rfl <;> trivial

theorem Mode.keysDistinct_of_step {mode mode' : Mode} {c : Char} {tokens : List Token}
    (h : Mode.step mode c = some (tokens, mode')) : ∀ t ∈ tokens, t.KeysDistinct := by
  cases mode with
  | between => exact keysDistinct_of_start h
  | word seen =>
      rw [Mode.step] at h
      split at h
      · cases h
        simp
      · obtain ⟨value, hvalue, h⟩ := Option.bind_eq_some_iff.1 h
        obtain ⟨⟨rest, next⟩, hstart, h⟩ := Option.bind_eq_some_iff.1 h
        cases h
        exact List.forall_mem_cons.2
          ⟨Value.keysDistinct_of_ofWord? hvalue, keysDistinct_of_start hstart⟩
  | text seen =>
      rw [Mode.step] at h
      split at h
      · cases h
        simp [Token.KeysDistinct]
      · split at h
        · cases h
          simp
        · split at h
          · cases h
          · cases h
            simp
  | escape seen =>
      rw [Mode.step] at h
      split at h
      · cases h
        simp
      · obtain ⟨e, -, h⟩ := Option.map_eq_some_iff.1 h
        cases h
        simp
  | hex seen high count unit =>
      obtain ⟨digit, -, h⟩ := Option.bind_eq_some_iff.1 h
      split at h
      · cases h
        simp
      · obtain ⟨next, -, h⟩ := Option.map_eq_some_iff.1 h
        cases h
        simp
  | pair seen high =>
      rw [Mode.step] at h
      split at h
      · cases h
        simp
      · cases h
  | pairEscape seen high =>
      rw [Mode.step] at h
      split at h
      · cases h
        simp
      · cases h

theorem Mode.keysDistinct_of_finish {mode : Mode} {tokens : List Token}
    (h : Mode.finish mode = some tokens) : ∀ t ∈ tokens, t.KeysDistinct := by
  cases mode with
  | between =>
      cases h
      simp
  | word seen =>
      obtain ⟨value, hvalue, rfl⟩ := Option.map_eq_some_iff.1 h
      intro t ht
      obtain rfl := List.mem_singleton.1 ht
      exact Value.keysDistinct_of_ofWord? hvalue
  | _ => cases h

theorem State.keysDistinct_begin {limit : Nat} {stack : List Frame} {t : Token} {s : State}
    (hstack : ∀ frame ∈ stack, frame.KeysDistinct) (ht : t.KeysDistinct)
    (h : State.begin limit stack t = some s) : s.KeysDistinct := by
  unfold State.begin at h
  split at h
  · cases h
    exact ⟨.string _, hstack⟩
  · cases h
    exact ⟨ht, hstack⟩
  · split at h
    · cases h
      exact hstack
    · cases h
  · split at h
    · cases h
      exact ⟨by simp, hstack⟩
    · cases h
  · cases h

/-- **One token keeps the keys distinct** in all that a reader holds. -/
theorem State.keysDistinct_step {limit : Nat} {s s' : State} {t : Token} (hs : s.KeysDistinct)
    (ht : t.KeysDistinct) (h : State.step limit s t = some s') : s'.KeysDistinct := by
  unfold State.step at h
  split at h
  · exact keysDistinct_begin hs ht h
  · cases h
    exact ⟨.array (by simp), hs⟩
  · refine keysDistinct_begin (List.forall_mem_cons.2 ⟨?_, hs⟩) ht h
    simp [Frame.KeysDistinct]
  · cases h
    exact hs
  · cases h
    exact hs
  · cases h
    exact List.forall_mem_cons.2 ⟨hs.1, hs.2⟩
  -- an item is complete, and then an array
  · cases h
    obtain ⟨hvalue, hstack⟩ := hs
    obtain ⟨hitems, hrest⟩ := List.forall_mem_cons.1 hstack
    exact List.forall_mem_cons.2 ⟨List.forall_mem_cons.2 ⟨hvalue, hitems⟩, hrest⟩
  · cases h
    obtain ⟨hvalue, hstack⟩ := hs
    obtain ⟨hitems, hrest⟩ := List.forall_mem_cons.1 hstack
    refine ⟨.array fun item hitem => ?_, hrest⟩
    exact List.forall_mem_cons.2 ⟨hvalue, hitems⟩ item (List.mem_reverse.1 hitem)
  -- a member is complete: nowhere else a key is added
  · cases h
    obtain ⟨hvalue, hstack⟩ := hs
    obtain ⟨hmembers, hrest⟩ := List.forall_mem_cons.1 hstack
    exact ⟨Value.KeysDistinct.put hmembers hvalue _, hrest⟩
  · cases h
    obtain ⟨hvalue, hstack⟩ := hs
    obtain ⟨hmembers, hrest⟩ := List.forall_mem_cons.1 hstack
    exact ⟨Value.KeysDistinct.put hmembers hvalue _, hrest⟩
  · cases h

/-- **In what is read from a text, keys are distinct.** -/
theorem Value.keysDistinct_of_ofText? {text : String} {value : Value}
    (h : Value.ofText? text = some value) : value.KeysDistinct := by
  obtain ⟨last, hlast, hresult⟩ := Option.bind_eq_some_iff.1 h
  have hstart : (State.expectValue []).KeysDistinct := by simp [State.KeysDistinct]
  have invariant : last.KeysDistinct :=
    (scanner maxNesting).run_invariant (Q := Token.KeysDistinct)
      (fun _ _ _ _ => Mode.keysDistinct_of_step) (fun _ _ => Mode.keysDistinct_of_finish)
      (fun _ _ _ => State.keysDistinct_step) hstart hlast
  unfold State.result? at hresult
  split at hresult
  · cases hresult
    exact invariant.1
  · cases hresult

theorem Value.keysDistinct_of_ofBytes? {bytes : ByteArray} {value : Value}
    (h : Value.ofBytes? bytes = some value) : value.KeysDistinct := by
  obtain ⟨text, -, h⟩ := Option.bind_eq_some_iff.1 h
  exact keysDistinct_of_ofText? h

end Json

end SchemaAudit
