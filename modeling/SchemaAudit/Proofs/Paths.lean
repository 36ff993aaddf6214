/-
**What the path of a place tells.**

Issues show places as text, and names stand in it as they are.  A name that holds a slash may look
like steps into a schema, so that different places may have the same path.  Nothing else can give
them the same path: somewhere on the way to such places two names stand side by side of which one
is the other one, a slash, and more.

Main definitions:

* `LongerBySlash`, `Confusable` — a name is another one, a slash, and more; one of two names is;
* `Place.extend` — the place that further steps lead to;
* `Place.Clash` — places below confusable names that stand side by side.

Main results:

* `Step.eq_or_confusable` — the text of a step tells the step, unless names are confusable;
* `Place.eq_or_clash_of_path_eq` — **places with the same path are the same or clash**.
-/

import SchemaAudit.Proofs.Walk

set_option relaxedAutoImplicit false
set_option autoImplicit false

namespace SchemaAudit

/-! ### Words between slashes -/

/-- A text before which a word is complete: it is empty or starts with a slash. -/
def Closed (cs : List Char) : Prop := ∀ c ∈ cs.head?, c = '/'

theorem closed_nil : Closed [] := by simp [Closed]

theorem closed_slash (cs : List Char) : Closed ('/' :: cs) := by simp [Closed]

theorem Closed.eq_slash {c : Char} {cs : List Char} (h : Closed (c :: cs)) : c = '/' :=
  h c rfl

/-- Words without slashes end where the text is closed. -/
theorem append_inj_of_closed {a b r r' : List Char} (ha : '/' ∉ a) (hb : '/' ∉ b) (hr : Closed r)
    (hr' : Closed r') (h : a ++ r = b ++ r') : a = b ∧ r = r' := by
  induction a generalizing b with
  | nil =>
      cases b with
      | nil => exact ⟨rfl, h⟩
      | cons c b =>
          obtain rfl : r = c :: (b ++ r') := h
          simp [hr.eq_slash] at hb
  | cons c a ih =>
      cases b with
      | nil =>
          obtain rfl : c :: (a ++ r) = r' := h
          simp [hr'.eq_slash] at ha
      | cons d b =>
          simp only [List.mem_cons, not_or] at ha hb
          simp only [List.cons_append, List.cons.injEq] at h
          obtain ⟨rfl, rfl⟩ := ih ha.2 hb.2 h.2
          exact ⟨by rw [h.1], rfl⟩

/-- The second name is the first one, a slash, and more. -/
def LongerBySlash (name other : String) : Prop := ∃ more, other = name ++ "/" ++ more

theorem longerBySlash_iff {name other : String} :
    LongerBySlash name other ↔ name.toList ++ ['/'] <+: other.toList := by
  constructor
  · rintro ⟨more, rfl⟩
    exact ⟨more.toList, by simp⟩
  · rintro ⟨more, h⟩
    exact ⟨String.ofList more, String.toList_inj.1 (by simp [← h])⟩

instance (name other : String) : Decidable (LongerBySlash name other) :=
  decidable_of_iff _ longerBySlash_iff.symm

/-- One of two names is the other one, a slash, and more. -/
def Confusable (name other : String) : Prop :=
  LongerBySlash name other ∨ LongerBySlash other name

theorem longerBySlash_of_append {name other : String} {c : Char} {more r : List Char}
    (hc : Closed (c :: more ++ r)) (h : other.toList = name.toList ++ c :: more) :
    LongerBySlash name other := by
  obtain rfl : c = '/' := hc.eq_slash
  exact longerBySlash_iff.2 ⟨more, by simp [h]⟩

/-- Names before closed texts are the same, unless they are confusable. -/
theorem eq_or_confusable_of_append {name other : String} {r r' : List Char} (hr : Closed r)
    (hr' : Closed r') (h : name.toList ++ r = other.toList ++ r') :
    (name = other ∧ r = r') ∨ Confusable name other := by
  rcases List.append_eq_append_iff.1 h with ⟨more, hother, rfl⟩ | ⟨more, hname, rfl⟩
  · cases more with
    | nil => exact .inl ⟨String.toList_inj.1 (by simpa using hother.symm), rfl⟩
    | cons c more => exact .inr (.inl (longerBySlash_of_append hr hother))
  · cases more with
    | nil => exact .inl ⟨String.toList_inj.1 (by simpa using hname), rfl⟩
    | cons c more => exact .inr (.inr (longerBySlash_of_append hr' hname))

/-! ### The notation of steps -/

namespace Step

/-- The keyword or the index with which the notation of a step starts. -/
def word : Step → String
  | .property _ => "properties"
  | .items => "items"
  | .additional => "additionalProperties"
  | .composition keyword => keyword.keyword
  | .branch index => toString index

/-- What follows the word in the notation of a step. -/
def rest : Step → List Char
  | .property name => '/' :: name.toList
  | _ => []

theorem toList_path (s : Step) : s.path.toList = s.word.toList ++ s.rest := by
  cases s with
  | property name => simp [word, rest, path, String.toList_append]
  | _ => simp [word, rest, path]

theorem closed_rest_append (s : Step) {r : List Char} (hr : Closed r) : Closed (s.rest ++ r) := by
  cases s with
  | property name => exact closed_slash _
  | _ => exact hr

theorem isDigit_of_mem_word {index : Nat} {c : Char} (h : c ∈ (branch index).word.toList) :
    c.isDigit = true := by
  rw [word, Nat.toString_eq_repr, Nat.repr_eq_ofList_toDigits, String.toList_ofList] at h
  exact Nat.isDigit_of_mem_toDigits (by decide) (by decide) h

/-- The words of other steps than those to a branch are letters. -/
theorem exists_mem_word {s : Step} (h : ∀ index, s ≠ .branch index) :
    ∃ c ∈ s.word.toList, c.isDigit = false := by
  cases s with
  | property name => exact ⟨'p', (by decide : 'p' ∈ "properties".toList ∧ 'p'.isDigit = false)⟩
  | items => exact ⟨'i', by decide⟩
  | additional => exact ⟨'a', by decide⟩
  | composition keyword => exact ⟨'O', by cases keyword <;> decide⟩
  | branch index => exact absurd rfl (h index)

theorem slash_notMem_word (s : Step) : '/' ∉ s.word.toList := by
  cases s with
  | property name => exact (by decide : '/' ∉ "properties".toList)
  | items => decide
  | additional => decide
  | composition keyword => cases keyword <;> decide
  | branch index => exact fun h => absurd (isDigit_of_mem_word h) (by decide)

/-- The word tells the step, unless it is a step to a property. -/
theorem eq_of_word_eq {s t : Step} (h : s.word = t.word) :
    s = t ∨ ∃ name other, s = .property name ∧ t = .property other := by
  have branch : ∀ {s t : Step} {index : Nat}, s = .branch index → s.word = t.word → s = t := by
    rintro s t index rfl h
    by_contra hne
    have hletters : ∀ index, t ≠ .branch index := by
      rintro other rfl
      exact hne (by rw [Nat.repr_inj.1 h])
    obtain ⟨c, hc, hdigit⟩ := exists_mem_word hletters
    simp [isDigit_of_mem_word (h ▸ hc)] at hdigit
  cases s with
  | branch index => exact .inl (branch rfl h)
  | property name =>
      cases t with
      | property other => exact .inr ⟨name, other, rfl, rfl⟩
      | branch index => exact .inl (branch rfl h.symm).symm
      | composition keyword => cases keyword <;> simp [word, Composition.keyword] at h
      | _ => simp [word] at h
  | composition keyword =>
      cases t with
      | branch index => exact .inl (branch rfl h.symm).symm
      | composition keyword' =>
          cases keyword <;> cases keyword' <;> simp_all [word, Composition.keyword]
      | _ => cases keyword <;> simp [word, Composition.keyword] at h
  | _ =>
      cases t with
      | branch index => exact .inl (branch rfl h.symm).symm
      | composition keyword => cases keyword <;> simp [word, Composition.keyword] at h
      | _ => simp_all [word]

/-- **The notation of a step tells the step**, unless it leads to a property and the names are
confusable. -/
theorem eq_or_confusable {s t : Step} {r r' : List Char} (hr : Closed r) (hr' : Closed r')
    (h : s.path.toList ++ r = t.path.toList ++ r') :
    (s = t ∧ r = r') ∨
      ∃ name other, s = .property name ∧ t = .property other ∧ Confusable name other := by
  rw [toList_path, toList_path, List.append_assoc, List.append_assoc] at h
  obtain ⟨hword, hrest⟩ := append_inj_of_closed s.slash_notMem_word t.slash_notMem_word
    (s.closed_rest_append hr) (t.closed_rest_append hr') h
  rcases eq_of_word_eq (String.toList_inj.1 hword) with rfl | ⟨name, other, rfl, rfl⟩
  · exact .inl ⟨rfl, List.append_cancel_left hrest⟩
  · simp only [rest, List.cons_append, List.cons.injEq, true_and] at hrest
    rcases eq_or_confusable_of_append hr hr' hrest with ⟨rfl, rfl⟩ | hnames
    · exact .inl ⟨rfl, rfl⟩
    · exact .inr ⟨name, other, rfl, rfl, hnames⟩

end Step

/-! ### The notation of places -/

namespace Place

/-- The place that further steps lead to. -/
def extend (p : Place) (steps : List Step) : Place := steps.foldl step p

/-- The notation of further steps. -/
def tail (steps : List Step) : List Char := steps.flatMap fun s => '/' :: s.path.toList

theorem closed_tail (steps : List Step) : Closed (tail steps) := by
  cases steps with
  | nil => exact closed_nil
  | cons s steps => exact closed_slash _

theorem toList_path_extend (p : Place) (steps : List Step) :
    (p.extend steps).path.toList = p.path.toList ++ tail steps := by
  induction steps generalizing p with
  | nil => simp [extend, tail]
  | cons s steps ih =>
      have h := ih (p.step s)
      simp only [extend, List.foldl_cons] at h ⊢
      rw [h]
      simp [path, tail, String.toList_append]

theorem under_step_iff {p q : Place} {s : Step} :
    p.Under (q.step s) ↔ p = q.step s ∨ p.Under q := by
  constructor
  · rintro (_ | ⟨_, h⟩)
    · exact .inl rfl
    · exact .inr h
  · rintro (rfl | h)
    · exact .refl
    · exact h.step s

theorem under_origin_iff {p : Place} {o : Origin} : p.Under (origin o) ↔ p = origin o := by
  constructor
  · rintro ⟨⟩
    rfl
  · rintro rfl
    exact .refl

theorem under_extend (p : Place) (steps : List Step) : p.Under (p.extend steps) := by
  induction steps generalizing p with
  | nil => exact .refl
  | cons s steps ih => exact (under_step p s).trans (ih (p.step s))

/-- Every place is where some steps lead to from an origin. -/
theorem exists_eq_extend (p : Place) : ∃ o steps, p = (origin o).extend steps := by
  induction p with
  | origin o => exact ⟨o, [], rfl⟩
  | step p s ih =>
      obtain ⟨o, steps, rfl⟩ := ih
      refine ⟨o, steps ++ [s], ?_⟩
      rw [extend, extend, List.foldl_append]
      rfl

/-- **Places below confusable names that stand side by side**: as properties of one schema, or as
definitions of one group. -/
inductive Clash : Place → Place → Prop
  | property {p q r : Place} {name other : String} : Confusable name other →
      (r.step (.property name)).Under p → (r.step (.property other)).Under q → Clash p q
  | definition {p q : Place} {group : DefinitionGroup} {name other : String} :
      Confusable name other → (origin (.definition group name)).Under p →
      (origin (.definition group other)).Under q → Clash p q

/-- Steps from one place with the same notation are the same, or lead to places that clash. -/
theorem eq_or_clash_of_tail_eq {steps steps' : List Step} (h : tail steps = tail steps')
    (p : Place) : steps = steps' ∨ (p.extend steps).Clash (p.extend steps') := by
  induction steps generalizing steps' p with
  | nil =>
      cases steps' with
      | nil => exact .inl rfl
      | cons t steps' => simp [tail] at h
  | cons s steps ih =>
      cases steps' with
      | nil => simp [tail] at h
      | cons t steps' =>
          have h : s.path.toList ++ tail steps = t.path.toList ++ tail steps' := by
            simpa [tail] using h
          rcases Step.eq_or_confusable (closed_tail _) (closed_tail _) h with
            ⟨rfl, htail⟩ | ⟨name, other, rfl, rfl, hnames⟩
          · exact (ih htail (p.step s)).imp_left (congrArg (List.cons s))
          · exact .inr (.property hnames (under_extend _ steps) (under_extend _ steps'))

/-- The notation of a way that starts at a definition, without the sign for the document. -/
theorem toList_path_definition (group : DefinitionGroup) (name : String) :
    (origin (.definition group name)).path.toList =
      '$' :: '/' :: (group.keyword.toList ++ '/' :: name.toList) := by
  simp [path, Origin.path, String.toList_append]

theorem slash_notMem_keyword (group : DefinitionGroup) : '/' ∉ group.keyword.toList := by
  cases group <;> decide

/-- No step is written like the way to a definition. -/
theorem word_ne_keyword (s : Step) (group : DefinitionGroup) : s.word ≠ group.keyword := by
  intro h
  cases s with
  | branch index =>
      have hletter : 'd' ∈ group.keyword.toList := by cases group <;> decide
      exact absurd (Step.isDigit_of_mem_word (h ▸ hletter)) (by decide)
  | composition keyword => cases keyword <;> cases group <;> exact absurd h (by decide)
  | _ => cases group <;> simp [Step.word, DefinitionGroup.keyword] at h

theorem tail_ne_definition (steps : List Step) (group : DefinitionGroup) (cs : List Char) :
    tail steps ≠ '/' :: (group.keyword.toList ++ '/' :: cs) := by
  cases steps with
  | nil => simp [tail]
  | cons s steps =>
      intro h
      have h : s.word.toList ++ (s.rest ++ tail steps) = group.keyword.toList ++ '/' :: cs := by
        simpa [tail, Step.toList_path] using h
      have hword := (append_inj_of_closed s.slash_notMem_word (slash_notMem_keyword group)
        (s.closed_rest_append (closed_tail _)) (closed_slash _) h).1
      exact word_ne_keyword s group (String.toList_inj.1 hword)

/-- The way from the root and the way from a definition are written differently. -/
theorem path_document_ne (steps steps' : List Step) (group : DefinitionGroup) (name : String) :
    ((origin .document).extend steps).path ≠
      ((origin (.definition group name)).extend steps').path := by
  intro h
  have h := congrArg String.toList h
  rw [toList_path_extend, toList_path_extend, toList_path_definition] at h
  refine tail_ne_definition steps group (name.toList ++ tail steps') ?_
  simpa [path, Origin.path] using h

/-- Ways from definitions with the same notation are the same, or lead to places that clash. -/
theorem eq_or_clash_of_path_definition_eq {group group' : DefinitionGroup} {name other : String}
    {steps steps' : List Step}
    (h : ((origin (.definition group name)).extend steps).path =
      ((origin (.definition group' other)).extend steps').path) :
    (origin (.definition group name)).extend steps =
        (origin (.definition group' other)).extend steps' ∨
      ((origin (.definition group name)).extend steps).Clash
        ((origin (.definition group' other)).extend steps') := by
  have h := congrArg String.toList h
  rw [toList_path_extend, toList_path_extend, toList_path_definition,
    toList_path_definition] at h
  have h : group.keyword.toList ++ ('/' :: (name.toList ++ tail steps)) =
      group'.keyword.toList ++ ('/' :: (other.toList ++ tail steps')) := by
    simpa using h
  obtain ⟨hkeyword, hrest⟩ := append_inj_of_closed (slash_notMem_keyword group)
    (slash_notMem_keyword group') (closed_slash _) (closed_slash _) h
  obtain rfl : group = group' := by
    cases group <;> cases group' <;> simp [DefinitionGroup.keyword] at hkeyword ⊢
  simp only [List.cons.injEq, true_and] at hrest
  rcases eq_or_confusable_of_append (closed_tail _) (closed_tail _) hrest with
    ⟨rfl, htail⟩ | hnames
  · exact (eq_or_clash_of_tail_eq htail _).imp_left (congrArg _)
  · exact .inr (.definition hnames (under_extend _ _) (under_extend _ _))

/-- **Places with the same path are the same**, or names on the way to them can be confused. -/
theorem eq_or_clash_of_path_eq {p q : Place} (h : p.path = q.path) : p = q ∨ p.Clash q := by
  obtain ⟨o, steps, rfl⟩ := p.exists_eq_extend
  obtain ⟨o', steps', rfl⟩ := q.exists_eq_extend
  cases o with
  | document =>
      cases o' with
      | document =>
          have h := congrArg String.toList h
          rw [toList_path_extend, toList_path_extend] at h
          exact (eq_or_clash_of_tail_eq (List.append_cancel_left h) _).imp_left (congrArg _)
      | definition group name => exact absurd h (path_document_ne _ _ _ _)
  | definition group name =>
      cases o' with
      | document => exact absurd h.symm (path_document_ne _ _ _ _)
      | definition group' other => exact eq_or_clash_of_path_definition_eq h

end Place

end SchemaAudit
