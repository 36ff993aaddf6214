/-
**What a settings file says.**

A settings file is written in lines, each of which gives a value to a key.  This module says which
settings some lines give, without following the reader, and proves that the reader finds just these
settings in every text in which the lines are written, and that it refuses the text if they give
none.

Main definitions:

* `Assignment`, `Lines` — a value that is given to a key, and lines of assignments;
* `WrittenIn` — **a text in which some assignments are written**;
* `GivenBy` — **the settings that some assignments give**.

Main results:

* `integer?_repr` — a number is read back, if it fits into a word;
* `assign?_eq_some_iff` — what an assignment changes;
* `Lines.foldlM` — the tokens of lines make their assignments;
* `ofText?_eq_some_iff` — **the settings of a text are those that its assignments give**;
* `exists_ofText?_eq_some` — all settings can be written in a file.
-/

import SchemaAudit.Proofs.SettingsTokens

set_option relaxedAutoImplicit false
set_option autoImplicit false

namespace SchemaAudit.Settings

/-! ### Numbers -/

theorem hexValue?_of_isDigit {c : Char} (h : c.isDigit = true) :
    hexValue? c = some (c.toNat - '0'.toNat) := if_pos h

theorem digits?_eq_ofDigitChars {digits : List Char} {value : ℕ} {ready : Bool}
    (h : ∀ c ∈ digits, c.isDigit = true) (hready : ready = true ∨ digits ≠ []) :
    digits? 10 value ready digits = some (Nat.ofDigitChars 10 digits value) := by
  induction digits generalizing value ready with
  | nil =>
      obtain rfl : ready = true := by simpa using hready
      rfl
  | cons c digits ih =>
      obtain ⟨hc, h⟩ := List.forall_mem_cons.1 h
      have hne : c ≠ '_' := by
        rintro rfl
        cases hc
      have hlt : c.toNat - '0'.toNat < 10 := by
        have bounds := Char.isDigit_iff_toNat.1 hc
        have nine : '9'.toNat = '0'.toNat + 9 := rfl
        omega
      rw [digits?, if_neg hne, hexValue?_of_isDigit hc]
      dsimp only
      rw [if_pos hlt, ih h (.inl rfl), Nat.ofDigitChars_cons]

/-- The digits of a number start with a zero only if there are no others. -/
theorem eq_nil_of_toDigits_eq_cons {n : ℕ} {rest : List Char}
    (h : Nat.toDigits 10 n = '0' :: rest) : rest = [] := by
  induction n using Nat.strongRecOn generalizing rest with
  | ind n ih =>
      rw [Nat.toDigits_eq_if (by decide)] at h
      split at h
      · exact (List.cons.inj h).2.symm
      · rename_i hn
        cases hfirst : Nat.toDigits 10 (n / 10) with
        | nil => exact absurd hfirst Nat.toDigits_ne_nil
        | cons c first =>
            rw [hfirst, List.cons_append] at h
            obtain ⟨rfl, -⟩ := List.cons.inj h
            obtain rfl := ih (n / 10) (by omega) hfirst
            have value : Nat.ofDigitChars 10 (Nat.toDigits 10 (n / 10)) 0 = n / 10 :=
              Nat.ofDigitChars_ten_toDigits
            rw [hfirst] at value
            have zero : Nat.ofDigitChars 10 ['0'] 0 = 0 := rfl
            omega

theorem decimal?_toDigits (n : ℕ) : decimal? (Nat.toDigits 10 n) = some n := by
  unfold decimal?
  split
  · exact absurd (eq_nil_of_toDigits_eq_cons ‹_›) (List.cons_ne_nil _ _)
  · rw [digits?_eq_ofDigitChars
      (fun c hc => Nat.isDigit_of_mem_toDigits (by decide) (by decide) hc)
      (.inr Nat.toDigits_ne_nil), Nat.ofDigitChars_ten_toDigits]

theorem natural?_toDigits (n : ℕ) : natural? (Nat.toDigits 10 n) = some n := by
  have digit : ∀ c ∈ Nat.toDigits 10 n, c.isDigit = true := fun c hc =>
    Nat.isDigit_of_mem_toDigits (by decide) (by decide) hc
  -- neither a sign nor the mark of another radix is a digit
  unfold natural?
  split
  case h_6 => exact decimal?_toDigits n
  all_goals
    rename_i hdigits
    rw [hdigits] at digit
    simp only [List.forall_mem_cons] at digit
    exact absurd digit (by simp +decide)

/-- **A number is read back**, if it fits into a word. -/
theorem integer?_repr (n : ℕ) :
    integer? n.repr.toList = if n < wordBound then some n else none := by
  rw [integer?, Nat.toList_repr, natural?_toDigits, Option.filter_some]
  simp only [decide_eq_true_eq]

/-! ### Assignments -/

/-- What may be given to a key. -/
inductive Given where
  | text (content : String)
  | number (n : ℕ)
  | list (items : List String)

/-- A value that is given to a key. -/
structure Assignment where
  name : String
  value : Given

/-- The tokens of the items of a list after the first one. -/
def itemTokens (items : List String) : List Token :=
  items.flatMap fun item => [.comma, .line item]

/-- The tokens of a value. -/
def Given.tokens : Given → List Token
  | .text content => [.line content]
  | .number n => [.word n.repr.toList]
  | .list [] => [.openBracket, .closeBracket]
  | .list (item :: items) => .openBracket :: .line item :: (itemTokens items ++ [.closeBracket])

/-- The tokens of an assignment. -/
def Assignment.tokens (a : Assignment) : List Token :=
  .word a.name.toList :: .equals :: a.value.tokens

/-- The tokens of lines, each of which is empty or has one assignment. The last one may lack its
end. -/
inductive Lines : List Assignment → List Token → Prop
  | nil : Lines [] []
  | last (a : Assignment) : Lines [a] a.tokens
  | empty {assignments : List Assignment} {tokens : List Token} (rest : Lines assignments tokens) :
      Lines assignments (.newline :: tokens)
  | cons {a : Assignment} {assignments : List Assignment} {tokens : List Token}
      (rest : Lines assignments tokens) :
      Lines (a :: assignments) (a.tokens ++ .newline :: tokens)

/-- **The assignments are written in the text.** -/
def WrittenIn (assignments : List Assignment) (text : String) : Prop :=
  ∃ tokens, Lines assignments tokens ∧ Writes tokens text.toList

/-- What settings give to the key of a name. -/
def given? (settings : Settings) : String → Option Given
  | "profile" => settings.profile.map .text
  | "property_case" => settings.naming.map .text
  | "max_union_variants" => settings.maxUnionVariants.map .number
  | "max_union_depth" => settings.maxUnionDepth.map .number
  | "discriminator_fields" => settings.tagFields.map .list
  | _ => none

/-- A number fits into a word. -/
def Given.InRange (value : Given) : Prop := ∀ n, value = .number n → n < wordBound

/-- **The settings that some assignments give.** -/
structure GivenBy (assignments : List Assignment) (settings : Settings) : Prop where
  /-- No key is given two values. -/
  once : (assignments.map Assignment.name).Nodup
  inRange : ∀ a ∈ assignments, a.value.InRange
  /-- The settings give what is assigned and nothing else. -/
  same : ∀ a, a ∈ assignments ↔ settings.given? a.name = some a.value

variable {settings next : Settings} {a : Assignment} {assignments : List Assignment}

/-- What settings give to the names is all that they hold. -/
theorem eq_of_given?_eq {settings other : Settings}
    (h : ∀ name, settings.given? name = other.given? name) : settings = other := by
  have text {field other : Option String} (h : field.map Given.text = other.map Given.text) :
      field = other := Option.map_injective (fun _ _ => Given.text.inj) h
  have number {field other : Option ℕ} (h : field.map Given.number = other.map Given.number) :
      field = other := Option.map_injective (fun _ _ => Given.number.inj) h
  have list {field other : Option (List String)} (h : field.map Given.list = other.map Given.list) :
      field = other := Option.map_injective (fun _ _ => Given.list.inj) h
  have profile := text (h "profile")
  have naming := text (h "property_case")
  have variants := number (h "max_union_variants")
  have depth := number (h "max_union_depth")
  have fields := list (h "discriminator_fields")
  cases settings
  cases other
  simp_all

/-- The value of a key. -/
def value? (settings : Settings) : Key → Option Given
  | .profile => settings.profile.map .text
  | .naming => settings.naming.map .text
  | .maxUnionVariants => settings.maxUnionVariants.map .number
  | .maxUnionDepth => settings.maxUnionDepth.map .number
  | .tagFields => settings.tagFields.map .list

theorem given?_eq (settings : Settings) (name : String) :
    settings.given? name = (Key.ofName? name).bind settings.value? := by
  unfold given?
  split
  case h_6 =>
      have unknown : Key.ofName? name = none := by
        unfold Key.ofName?
        split <;> first | rfl | contradiction
      rw [unknown, Option.bind_none]
  all_goals rfl

theorem isSet_eq (key : Key) : settings.isSet key = (settings.value? key).isSome := by
  cases key <;> exact (Option.isSome_map ..).symm

theorem Key.eq_of_ofName?_eq {name other : String} {key : Key} (h : ofName? name = some key)
    (h' : ofName? other = some key) : name = other := by
  unfold ofName? at h h'
  split at h <;> cases h <;> split at h' <;> simp_all

/-- Sets a key to a value. -/
def set? (settings : Settings) (key : Key) : Given → Option Settings
  | .text content => settings.setText? key content
  | .number n => if n < wordBound then settings.setNumber? key n else none
  | .list items => if key = .tagFields then some { settings with tagFields := some items } else none

/-- What is set is the value of the key, and nothing else changes. -/
theorem of_set?_eq_some {key : Key} {value : Given} (h : settings.set? key value = some next) :
    value.InRange ∧
      ∀ other, next.value? other = if other = key then some value else settings.value? other := by
  cases value with
  | text content =>
      refine ⟨nofun, fun other => ?_⟩
      cases key <;> cases h <;> cases other <;> rfl
  | number n =>
      rw [set?] at h
      split at h
      · rename_i hn
        refine ⟨fun m hm => Given.number.inj hm ▸ hn, fun other => ?_⟩
        cases key <;> cases h <;> cases other <;> rfl
      · cases h
  | list items =>
      refine ⟨nofun, fun other => ?_⟩
      rw [set?] at h
      split at h
      · rename_i hkey
        subst hkey
        cases h
        cases other <;> rfl
      · cases h

/-- A value that a key may have can be set. -/
theorem exists_set?_eq_some {other : Settings} {key : Key} {value : Given}
    (inRange : value.InRange) (h : other.value? key = some value) (settings : Settings) :
    ∃ next, settings.set? key value = some next := by
  cases value with
  | text content =>
      cases key <;> simp [value?] at h <;> exact ⟨_, rfl⟩
  | number n =>
      rw [set?, if_pos (inRange n rfl)]
      cases key <;> simp [value?] at h <;> exact ⟨_, rfl⟩
  | list items =>
      cases key <;> simp [value?] at h
      exact ⟨_, rfl⟩

/-- The settings after one more assignment. -/
def assign? (settings : Settings) (a : Assignment) : Option Settings := do
  let key ← Key.ofName? a.name
  if settings.isSet key then none else settings.set? key a.value

/-- An assignment sets a key that was not set, and nothing else changes. -/
theorem of_assign?_eq_some (h : settings.assign? a = some next) :
    settings.given? a.name = none ∧ a.value.InRange ∧
      ∀ name, next.given? name = if name = a.name then some a.value else settings.given? name := by
  obtain ⟨key, hkey, h⟩ := Option.bind_eq_some_iff.1 h
  split at h
  · cases h
  · rename_i unset
    rw [isSet_eq, Option.not_isSome_iff_eq_none] at unset
    obtain ⟨inRange, same⟩ := of_set?_eq_some h
    refine ⟨by rw [given?_eq, hkey, Option.bind_some, unset], inRange, fun name => ?_⟩
    split
    · rename_i hname
      rw [hname, given?_eq, hkey, Option.bind_some, same, if_pos rfl]
    · rename_i hname
      rw [given?_eq, given?_eq]
      refine Option.bind_congr fun other hother => ?_
      rw [same, if_neg]
      rintro rfl
      exact hname (Key.eq_of_ofName?_eq hother hkey)

/-- What some settings give can be assigned where the key is not set. -/
theorem exists_assign?_eq_some {other : Settings} (unset : settings.given? a.name = none)
    (inRange : a.value.InRange) (given : other.given? a.name = some a.value) :
    ∃ next, settings.assign? a = some next := by
  rw [given?_eq] at given
  obtain ⟨key, hkey, given⟩ := Option.bind_eq_some_iff.1 given
  obtain ⟨next, h⟩ := exists_set?_eq_some inRange given settings
  rw [given?_eq, hkey, Option.bind_some] at unset
  refine ⟨next, ?_⟩
  rw [assign?, hkey, Option.bind_eq_bind, Option.bind_some, isSet_eq, unset]
  exact h

/-- **What an assignment changes**: it is possible if its key is not set yet and may have such a
value, and then the key has this value and nothing else changes. -/
theorem assign?_eq_some_iff :
    settings.assign? a = some next ↔
      settings.given? a.name = none ∧ a.value.InRange ∧
        ∀ name, next.given? name =
          if name = a.name then some a.value else settings.given? name := by
  refine ⟨of_assign?_eq_some, fun ⟨unset, inRange, same⟩ => ?_⟩
  have given : next.given? a.name = some a.value := by rw [same, if_pos rfl]
  obtain ⟨after, h⟩ := exists_assign?_eq_some unset inRange given
  obtain ⟨-, -, same'⟩ := of_assign?_eq_some h
  rw [h, eq_of_given?_eq fun name => (same' name).trans (same name).symm]

/-! ### Several assignments -/

theorem GivenBy.unique {other : Settings} (h : settings.GivenBy assignments)
    (h' : other.GivenBy assignments) : settings = other :=
  eq_of_given?_eq fun name => Option.ext fun value =>
    (h.same ⟨name, value⟩).symm.trans (h'.same ⟨name, value⟩)

theorem givenBy_nil : GivenBy [] {} where
  once := List.nodup_nil
  inRange := nofun
  same := fun a => by
    refine ⟨nofun, fun h => ?_⟩
    unfold given? at h
    split at h <;> cases h

/-- The name of an assignment is taken exactly if the settings have a value for it. -/
theorem GivenBy.mem_names_iff (h : settings.GivenBy assignments) {name : String} :
    name ∈ assignments.map Assignment.name ↔ ∃ value, settings.given? name = some value := by
  simp only [← fun value => h.same ⟨name, value⟩, List.mem_map]
  constructor
  · rintro ⟨⟨_, value⟩, ha, rfl⟩
    exact ⟨value, ha⟩
  · rintro ⟨value, ha⟩
    exact ⟨⟨name, value⟩, ha, rfl⟩

/-- What is assigned when a new name is given a value. -/
theorem GivenBy.mem_append_iff (h : settings.GivenBy assignments)
    (fresh : settings.given? a.name = none) (b : Assignment) :
    b ∈ assignments ++ [a] ↔
      (if b.name = a.name then some a.value else settings.given? b.name) = some b.value := by
  rw [List.mem_append, List.mem_singleton, h.same]
  split
  · rename_i hname
    rw [hname, fresh]
    constructor
    · rintro (hb | rfl)
      · cases hb
      · rfl
    · intro hvalue
      cases a
      cases b
      simp_all
  · rename_i hname
    refine ⟨?_, .inl⟩
    rintro (hb | rfl)
    · exact hb
    · exact absurd rfl hname

theorem GivenBy.given?_eq_none_iff (h : settings.GivenBy assignments) {name : String} :
    settings.given? name = none ↔ name ∉ assignments.map Assignment.name := by
  rw [h.mem_names_iff, Option.eq_none_iff_forall_ne_some, not_exists]

/-- Settings are given by one more assignment exactly if it can be made. -/
theorem GivenBy.append_iff (h : settings.GivenBy assignments) :
    next.GivenBy (assignments ++ [a]) ↔ settings.assign? a = some next := by
  rw [assign?_eq_some_iff]
  constructor
  · intro all
    have fresh : settings.given? a.name = none := by
      have once := all.once
      rw [List.map_append, List.map_singleton, List.nodup_append_comm] at once
      exact h.given?_eq_none_iff.2 (List.nodup_cons.1 once).1
    refine ⟨fresh, all.inRange a (by simp), fun name => Option.ext fun value => ?_⟩
    exact (all.same ⟨name, value⟩).symm.trans (h.mem_append_iff fresh ⟨name, value⟩)
  · rintro ⟨fresh, inRange, same⟩
    refine ⟨?_, ?_, fun b => ?_⟩
    · rw [List.map_append, List.map_singleton, List.nodup_append_comm]
      exact List.nodup_cons.2 ⟨h.given?_eq_none_iff.1 fresh, h.once⟩
    · intro b hb
      rcases List.mem_append.1 hb with hb | hb
      · exact h.inRange b hb
      · exact List.mem_singleton.1 hb ▸ inRange
    · rw [h.mem_append_iff fresh, same]

/-- If there are settings that more assignments give, the next one can be made. -/
theorem GivenBy.exists_of_append {rest : List Assignment}
    (all : next.GivenBy (assignments ++ a :: rest)) (h : settings.GivenBy assignments) :
    ∃ after, settings.assign? a = some after := by
  have ha : a ∈ assignments ++ a :: rest := by simp
  have fresh : a.name ∉ assignments.map Assignment.name := by
    have once := all.once
    rw [List.map_append, List.map_cons] at once
    exact fun hmem => List.disjoint_of_nodup_append once hmem List.mem_cons_self
  exact exists_assign?_eq_some (h.given?_eq_none_iff.2 fresh) (all.inRange a ha)
    ((all.same a).1 ha)

/-- **Assignments are made one after the other**, as long as there are settings that they give. -/
theorem foldlM_assign?_eq_some_iff {rest : List Assignment} (h : settings.GivenBy assignments) :
    rest.foldlM assign? settings = some next ↔ next.GivenBy (assignments ++ rest) := by
  induction rest generalizing settings assignments with
  | nil =>
      rw [List.append_nil, List.foldlM_nil]
      refine ⟨fun hnext => ?_, fun hnext => ?_⟩
      · cases hnext
        exact h
      · rw [h.unique hnext]
        rfl
  | cons a rest ih =>
      rw [List.foldlM_cons, Option.bind_eq_bind]
      cases assigned : settings.assign? a with
      | some after =>
          rw [Option.bind_some, ih (h.append_iff.2 assigned), List.append_assoc,
            List.singleton_append]
      | none =>
          refine ⟨nofun, fun all => ?_⟩
          obtain ⟨after, hafter⟩ := all.exists_of_append h
          rw [assigned] at hafter
          cases hafter

/-! ### Lines -/

theorem foldlM_itemTokens {items done : List String} {tokens : List Token} :
    (itemTokens items ++ .closeBracket :: tokens).foldlM State.step (.afterItem settings done) =
      tokens.foldlM State.step
        (.lineEnd { settings with tagFields := some (done.reverse ++ items) }) := by
  induction items generalizing done with
  | nil =>
      rw [List.append_nil]
      rfl
  | cons item items ih =>
      have step : (itemTokens (item :: items) ++ .closeBracket :: tokens).foldlM State.step
          (.afterItem settings done) =
            (itemTokens items ++ .closeBracket :: tokens).foldlM State.step
              (.afterItem settings (item :: done)) := rfl
      rw [step, ih, List.reverse_cons, List.append_assoc, List.singleton_append]

/-- The tokens of a value set the key that they are given to. -/
theorem foldlM_given (key : Key) (value : Given) (tokens : List Token) :
    (value.tokens ++ tokens).foldlM State.step (.value settings key) =
      (settings.set? key value).bind fun next => tokens.foldlM State.step (.lineEnd next) := by
  cases value with
  | text content =>
      rw [Given.tokens, List.singleton_append, List.foldlM_cons, set?]
      cases key <;> rfl
  | number n =>
      rw [Given.tokens, List.singleton_append, List.foldlM_cons, set?]
      have step : State.step (.value settings key) (.word n.repr.toList) =
          (integer? n.repr.toList).bind fun number =>
            (settings.setNumber? key number).map State.lineEnd := by
        cases key <;> rfl
      rw [step, integer?_repr]
      split
      · cases key <;> rfl
      · rfl
  | list items =>
      rw [set?]
      split
      · rename_i hkey
        subst hkey
        cases items with
        | nil => rfl
        | cons item items =>
            have opened : ((Given.list (item :: items)).tokens ++ tokens).foldlM State.step
                (.value settings .tagFields) =
                  (itemTokens items ++ .closeBracket :: tokens).foldlM State.step
                    (.afterItem settings [item]) := by
              rw [Given.tokens, List.cons_append, List.cons_append, List.append_assoc,
                List.singleton_append]
              rfl
            rw [opened, foldlM_itemTokens]
            rfl
      · rename_i hkey
        have refused : State.step (.value settings key) .openBracket = none := by
          cases key <;> first | rfl | exact absurd rfl hkey
        cases items <;>
          rw [Given.tokens, List.cons_append, List.foldlM_cons, refused] <;> rfl

theorem foldlM_assignment (settings : Settings) (a : Assignment) (tokens : List Token) :
    (a.tokens ++ tokens).foldlM State.step (.lineStart settings) =
      (settings.assign? a).bind fun next => tokens.foldlM State.step (.lineEnd next) := by
  have start : State.step (.lineStart settings) (.word a.name.toList) =
      State.ofKey? settings a.name := by
    rw [State.step, String.ofList_toList]
  rw [Assignment.tokens, List.cons_append, List.foldlM_cons, start, State.ofKey?, assign?]
  cases Key.ofName? a.name with
  | none => rfl
  | some key =>
      simp only [Option.bind_eq_bind, Option.bind_some]
      split
      · rfl
      · rw [Option.bind_some, ← foldlM_given]
        rfl

/-- **The tokens of lines make their assignments.** -/
theorem Lines.foldlM {tokens : List Token} (h : Lines assignments tokens) :
    (tokens.foldlM State.step (.lineStart settings) >>= State.result?) =
      assignments.foldlM assign? settings := by
  induction h generalizing settings with
  | nil => rfl
  | last a =>
      have made := foldlM_assignment settings a []
      rw [List.append_nil] at made
      rw [made, List.foldlM_cons, Option.bind_eq_bind, Option.bind_assoc]
      rfl
  | empty _ ih => exact ih
  | @cons a assignments tokens _ ih =>
      rw [foldlM_assignment, List.foldlM_cons, Option.bind_eq_bind, Option.bind_assoc]
      exact Option.bind_congr fun next _ => ih

/-- The mark that may open a text file starts no token. -/
theorem dropMark_of_writes {text : List Char} {tokens : List Token} (h : Writes tokens text) :
    dropMark text = text := by
  have mark {cs : List Char} : ¬Writes tokens ('\ufeff' :: cs) := by
    intro h
    generalize hall : '\ufeff' :: cs = all at h
    cases h with
    | nil => cases hall
    | blank blank =>
        obtain ⟨rfl, -⟩ := List.cons.inj hall
        cases blank
    | comment => cases (List.cons.inj hall).1
    | token spelled =>
        cases spelled with
        | word nonempty chars =>
            obtain ⟨c, rest, rfl⟩ := List.exists_cons_of_ne_nil nonempty
            obtain ⟨rfl, -⟩ := List.cons.inj hall
            cases chars _ List.mem_cons_self
        | _ => cases (List.cons.inj hall).1
  unfold dropMark
  split
  · exact absurd h mark
  · rfl

/-- **The settings of a text are those that its assignments give.** -/
theorem ofText?_eq_some_iff {text : String} (h : WrittenIn assignments text) :
    ofText? text = some settings ↔ settings.GivenBy assignments := by
  obtain ⟨tokens, lines, writes⟩ := h
  rw [ofText?, dropMark_of_writes writes, run_writes writes, lines.foldlM,
    foldlM_assign?_eq_some_iff givenBy_nil, List.nil_append]

/-! ### Texts for all settings -/

theorem Given.exists_spelled (value : Given) : ∀ t ∈ value.tokens, ∃ text, t.Spelled text := by
  cases value with
  | text content => exact List.forall_mem_singleton.2 ⟨_, .double content⟩
  | number n =>
      have digits : ∀ c ∈ n.repr.toList, isWordChar c = true := by
        intro c hc
        rw [Nat.toList_repr] at hc
        have digit := Nat.isDigit_of_mem_toDigits (by decide) (by decide) hc
        simp [isWordChar, Char.isAlphanum, digit]
      have nonempty : n.repr.toList ≠ [] := by
        rw [Nat.toList_repr]
        exact Nat.toDigits_ne_nil
      exact List.forall_mem_singleton.2 ⟨_, .word nonempty digits⟩
  | list items =>
      cases items with
      | nil =>
          intro t ht
          simp only [tokens, List.mem_cons, List.not_mem_nil, or_false] at ht
          rcases ht with rfl | rfl
          · exact ⟨_, .openBracket⟩
          · exact ⟨_, .closeBracket⟩
      | cons item items =>
          intro t ht
          simp only [tokens, itemTokens, List.mem_cons, List.mem_append, List.mem_flatMap,
            List.not_mem_nil, or_false] at ht
          rcases ht with rfl | rfl | ⟨later, -, rfl | rfl⟩ | rfl
          · exact ⟨_, .openBracket⟩
          · exact ⟨_, .double _⟩
          · exact ⟨_, .comma⟩
          · exact ⟨_, .double _⟩
          · exact ⟨_, .closeBracket⟩

/-- Assignments to names that are words can be written. -/
theorem exists_writtenIn
    (h : ∀ a ∈ assignments, a.name.toList ≠ [] ∧ ∀ c ∈ a.name.toList, isWordChar c = true) :
    ∃ text, WrittenIn assignments text := by
  have lines : ∃ tokens, Lines assignments tokens ∧ ∀ t ∈ tokens, ∃ text, t.Spelled text := by
    induction assignments with
    | nil => exact ⟨[], .nil, nofun⟩
    | cons a assignments ih =>
        obtain ⟨⟨nonempty, chars⟩, h⟩ := List.forall_mem_cons.1 h
        obtain ⟨tokens, lines, spelled⟩ := ih h
        refine ⟨_, .cons lines, fun t ht => ?_⟩
        simp only [Assignment.tokens, List.cons_append, List.mem_cons, List.mem_append] at ht
        rcases ht with rfl | rfl | ht | rfl | ht
        · exact ⟨_, .word nonempty chars⟩
        · exact ⟨_, .equals⟩
        · exact a.value.exists_spelled t ht
        · exact ⟨_, .newline⟩
        · exact spelled t ht
  obtain ⟨tokens, lines, spelled⟩ := lines
  obtain ⟨text, writes⟩ := exists_writes spelled
  refine ⟨String.ofList text, tokens, lines, ?_⟩
  rwa [String.toList_ofList]

/-- The names of the keys. -/
def names : List String :=
  ["profile", "property_case", "max_union_variants", "max_union_depth", "discriminator_fields"]

theorem mem_names_of_given? {name : String} {value : Given}
    (h : settings.given? name = some value) : name ∈ names := by
  unfold given? at h
  split at h <;> simp [names] at h ⊢

/-- **All settings can be written in a file**, if their numbers fit into a word. -/
theorem exists_ofText?_eq_some
    (h : ∀ name value, settings.given? name = some value → value.InRange) :
    ∃ text, ofText? text = some settings := by
  let assignments := names.filterMap fun name => (settings.given? name).map (Assignment.mk name)
  have mem (a : Assignment) : a ∈ assignments ↔ settings.given? a.name = some a.value := by
    simp only [assignments, List.mem_filterMap, Option.map_eq_some_iff]
    constructor
    · rintro ⟨name, -, value, hvalue, rfl⟩
      exact hvalue
    · exact fun ha => ⟨a.name, mem_names_of_given? ha, a.value, ha, rfl⟩
  have given : settings.GivenBy assignments := by
    refine ⟨?_, fun a ha => h a.name a.value ((mem a).1 ha), mem⟩
    have kept : assignments.map Assignment.name =
        names.filter fun name => (settings.given? name).isSome := by
      rw [List.map_filterMap, ← List.filterMap_eq_filter]
      refine congrArg (List.filterMap · names) (funext fun name => ?_)
      cases hvalue : settings.given? name <;> simp [Option.guard, hvalue]
    rw [kept]
    exact List.Nodup.filter _ (by decide)
  have words : ∀ name ∈ names, name.toList ≠ [] ∧ ∀ c ∈ name.toList, isWordChar c = true := by
    have all : names.all fun name => !name.toList.isEmpty && name.toList.all isWordChar := by rfl
    simpa using all
  obtain ⟨text, written⟩ := exists_writtenIn fun a ha =>
    words a.name (mem_names_of_given? ((mem a).1 ha))
  exact ⟨text, (ofText?_eq_some_iff written).2 given⟩

end SchemaAudit.Settings
