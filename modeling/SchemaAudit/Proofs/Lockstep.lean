/-
**Walks in lockstep.**

Two walks whose schemas correspond, each to each, make corresponding stops.  To show that two
observers of such walks see the same it is enough to look at one schema at a time: what they see at
its own stops, and whether the schemas that it leads on to correspond again.  Where these correspond
up to order only, the observers see the same up to order.

Main definitions:

* `Site.Lockstep` — two schemas look the same to two observers, and lead on to related schemas;
* `Reordering` — two lists are related element by element, up to order.

Main results:

* `Site.flatMap_visits_eq` — **observers of walks in lockstep see the same**;
* `Document.flatMap_visits_eq` — the same for documents;
* `Site.flatMap_visits_perm`, `Document.flatMap_visits_perm` — the same up to order.
-/

import SchemaAudit.Proofs.Walk

set_option relaxedAutoImplicit false
set_option autoImplicit false

namespace SchemaAudit

section Lists

variable {α β γ : Type} {R : α → β → Prop} {l : List α} {l' : List β}

theorem flatMap_eq_of_forall₂ {f : α → List γ} {g : β → List γ} (h : List.Forall₂ R l l')
    (hfg : ∀ a ∈ l, ∀ b, R a b → f a = g b) : l.flatMap f = l'.flatMap g := by
  induction h with
  | nil => rfl
  | @cons a b l l' hab _ ih =>
      rw [List.flatMap_cons, List.flatMap_cons, hfg a List.mem_cons_self b hab,
        ih fun a ha => hfg a (List.mem_cons_of_mem _ ha)]

theorem flatMap_perm_of_forall₂ {f : α → List γ} {g : β → List γ} (h : List.Forall₂ R l l')
    (hfg : ∀ a ∈ l, ∀ b, R a b → (f a).Perm (g b)) : (l.flatMap f).Perm (l'.flatMap g) := by
  induction h with
  | nil => exact .refl _
  | @cons a b l l' hab _ ih =>
      rw [List.flatMap_cons, List.flatMap_cons]
      exact (hfg a List.mem_cons_self b hab).append
        (ih fun a ha => hfg a (List.mem_cons_of_mem _ ha))

/-- Lists with the same image are related element by element. -/
theorem forall₂_of_map_eq {f : α → γ} {g : β → γ} (h : l.map f = l'.map g)
    (hR : ∀ a ∈ l, ∀ b ∈ l', f a = g b → R a b) : List.Forall₂ R l l' := by
  induction l generalizing l' with
  | nil =>
      rw [List.map_nil, eq_comm, List.map_eq_nil_iff] at h
      exact h ▸ .nil
  | cons a l ih =>
      obtain ⟨b, l', rfl, hab, hl⟩ := List.map_eq_cons_iff.1 h.symm
      refine .cons (hR a List.mem_cons_self b List.mem_cons_self hab.symm) (ih hl.symm ?_)
      exact fun a ha b hb => hR a (List.mem_cons_of_mem _ ha) b (List.mem_cons_of_mem _ hb)

end Lists

/-! ### One step of two walks -/

variable {γ : Type} {R : Site → Site → Prop} {g h : Visit → List γ}

/-- Two schemas that are entered look the same to two observers `g` and `h`, and the walks from them
go on to related schemas. -/
structure Site.Lockstep (R : Site → Site → Prop) (g h : Visit → List γ) (x y : Site) : Prop where
  schema : g (.schema x.place x.schema) = h (.schema y.place y.schema)
  unions : ∀ keyword, keyword ≠ .allOf →
    (x.unionStops keyword).flatMap g = (y.unionStops keyword).flatMap h
  branches : ∀ keyword, keyword ≠ .allOf →
    List.Forall₂ R (x.union keyword).entered (y.union keyword).entered
  parts : List.Forall₂ R (x.properties ++ x.others) (y.properties ++ y.others)
  names :
    g (.names x.place x.schema.properties.names) = h (.names y.place y.schema.properties.names)

/-- **Observers of walks in lockstep see the same.** -/
theorem Site.flatMap_visits_eq
    (reference : ∀ {x y}, R x y → x.schema.isReference = y.schema.isReference)
    (step : ∀ {x y}, R x y → x.schema.isReference = false → Lockstep R g h x y) {x y : Site}
    (hxy : R x y) : x.visits.flatMap g = y.visits.flatMap h := by
  induction x using Site.inductionOn generalizing y with
  | step x ih =>
      cases href : x.schema.isReference with
      | true =>
          have href' := (reference hxy).symm.trans href
          rw [visits_of_isReference href, visits_of_isReference href']
          rfl
      | false =>
          have href' := (reference hxy).symm.trans href
          have lockstep := step hxy href
          -- the induction hypothesis, for all schemas of one kind at once
          have below : ∀ {zs zs' : List Site}, (∀ z ∈ zs, z ∈ x.entered) → List.Forall₂ R zs zs' →
              (zs.flatMap visits).flatMap g = (zs'.flatMap visits).flatMap h := by
            intro zs zs' hzs hrelated
            rw [List.flatMap_assoc, List.flatMap_assoc]
            exact flatMap_eq_of_forall₂ hrelated fun z hz z' hzz' => ih z (hzs z hz) hzz'
          have branches : ∀ keyword, keyword ≠ .allOf →
              ((x.union keyword).entered.flatMap visits).flatMap g =
                ((y.union keyword).entered.flatMap visits).flatMap h := fun keyword hkeyword =>
            below (fun z hz => mem_entered_iff.2 (.inl ⟨keyword, hkeyword, hz⟩))
              (lockstep.branches keyword hkeyword)
          have parts := below (fun z hz => mem_entered_iff.2 (.inr (List.mem_append.1 hz)))
            lockstep.parts
          have any := branches .anyOf (by simp)
          have one := branches .oneOf (by simp)
          rw [visits_eq href, visits_eq href']
          simp only [List.flatMap_cons, List.flatMap_append, List.flatMap_nil] at any one parts ⊢
          rw [lockstep.schema, lockstep.unions .anyOf (by simp), lockstep.unions .oneOf (by simp),
            lockstep.names, any, one, parts]

/-- **Observers of documents whose walks are in lockstep see the same.** -/
theorem Document.flatMap_visits_eq
    (reference : ∀ {x y}, R x y → x.schema.isReference = y.schema.isReference)
    (step : ∀ {x y}, R x y → x.schema.isReference = false → Site.Lockstep R g h x y)
    {d e : Document} (hde : List.Forall₂ R d.sites e.sites) :
    d.visits.flatMap g = e.visits.flatMap h := by
  rw [visits_eq_flatMap, visits_eq_flatMap, List.flatMap_assoc, List.flatMap_assoc]
  exact flatMap_eq_of_forall₂ hde fun x _ y hxy => Site.flatMap_visits_eq reference step hxy

/-! ### Lists that are related up to order -/

/-- Once reordered, the first list is related to the second one element by element. -/
def Reordering {α β : Type} (R : α → β → Prop) (l : List α) (l' : List β) : Prop :=
  ∃ mid, l.Perm mid ∧ List.Forall₂ R mid l'

namespace Reordering

variable {α β γ δ : Type} {R : α → β → Prop} {S : γ → δ → Prop} {l : List α} {l' : List β}

theorem of_forall₂ (h : List.Forall₂ R l l') : Reordering R l l' := ⟨l, .refl l, h⟩

theorem length_eq (h : Reordering R l l') : l.length = l'.length := by
  obtain ⟨mid, perm, related⟩ := h
  exact perm.length_eq.trans related.length_eq

theorem append {m : List α} {m' : List β} (h : Reordering R l l') (h' : Reordering R m m') :
    Reordering R (l ++ m) (l' ++ m') := by
  obtain ⟨mid, perm, related⟩ := h
  obtain ⟨mid', perm', related'⟩ := h'
  exact ⟨mid ++ mid', perm.append perm', List.rel_append related related'⟩

theorem map {f : α → γ} {g : β → δ} (h : Reordering R l l') (hfg : ∀ a b, R a b → S (f a) (g b)) :
    Reordering S (l.map f) (l'.map g) := by
  obtain ⟨mid, perm, related⟩ := h
  exact ⟨mid.map f, perm.map f, List.rel_map (fun {a b} => hfg a b) related⟩

/-- Lists are related up to order if the lists of their images are. -/
theorem of_map {f : α → γ} {g : β → δ} (h : Reordering S (l.map f) (l'.map g)) :
    Reordering (fun a b => S (f a) (g b)) l l' := by
  obtain ⟨image, perm, related⟩ := h
  have hcomp : Relation.Comp (· = List.map f ·) (·.Perm ·) image l := by
    rw [List.eq_map_comp_perm]
    exact perm.symm
  obtain ⟨mid, rfl, hmid⟩ := hcomp
  exact ⟨mid, hmid.symm, List.forall₂_map_left_iff.1 (List.forall₂_map_right_iff.1 related)⟩

theorem filterMap {f : α → Option γ} {g : β → Option δ} (h : Reordering R l l')
    (hfg : ∀ a b, R a b → Option.Rel S (f a) (g b)) :
    Reordering S (l.filterMap f) (l'.filterMap g) := by
  obtain ⟨mid, perm, related⟩ := h
  exact ⟨mid.filterMap f, perm.filterMap f, List.rel_filterMap (fun {a b} => hfg a b) related⟩

theorem filter {p : α → Bool} {q : β → Bool} (h : Reordering R l l')
    (hpq : ∀ a b, R a b → p a = q b) : Reordering R (l.filter p) (l'.filter q) := by
  obtain ⟨mid, perm, related⟩ := h
  refine ⟨mid.filter p, perm.filter p, List.rel_filter (fun {a b} hab => ?_) related⟩
  exact Bool.eq_iff_iff.1 (hpq a b hab)

/-- What is the same of related elements makes the same list, up to order. -/
theorem perm_map {f : α → γ} {g : β → γ} (h : Reordering R l l')
    (hfg : ∀ a b, R a b → f a = g b) : (l.map f).Perm (l'.map g) := by
  obtain ⟨mid, perm, related⟩ := h.map (S := Eq) hfg
  exact perm.trans (.of_eq (List.forall₂_eq_eq_eq ▸ related))

theorem perm_flatMap {f : α → List γ} {g : β → List γ} (h : Reordering R l l')
    (hfg : ∀ a ∈ l, ∀ b, R a b → (f a).Perm (g b)) : (l.flatMap f).Perm (l'.flatMap g) := by
  obtain ⟨mid, perm, related⟩ := h
  refine (perm.flatMap_right f).trans (flatMap_perm_of_forall₂ related ?_)
  exact fun a ha => hfg a (perm.mem_iff.2 ha)

/-- Behind every element of the second list stands a related one of the first list. -/
theorem exists_of_mem_right (h : Reordering R l l') {b : β} (hb : b ∈ l') : ∃ a ∈ l, R a b := by
  obtain ⟨mid, perm, related⟩ := h
  have behind : ∃ a ∈ mid, R a b := by
    clear perm
    induction related with
    | nil => cases hb
    | cons hab _ ih =>
        rcases List.mem_cons.1 hb with rfl | hb
        · exact ⟨_, List.mem_cons_self, hab⟩
        · obtain ⟨a, ha, hab⟩ := ih hb
          exact ⟨a, List.mem_cons_of_mem _ ha, hab⟩
  obtain ⟨a, ha, hab⟩ := behind
  exact ⟨a, perm.mem_iff.2 ha, hab⟩

end Reordering

/-! ### Walks up to order -/

section Walks

variable (reference : ∀ {x y}, R x y → x.schema.isReference = y.schema.isReference)
  (stops : ∀ {x y}, R x y → x.schema.isReference = false →
    (x.stops.flatMap g).Perm (y.stops.flatMap h))
  (entered : ∀ {x y}, R x y → x.schema.isReference = false → Reordering R x.entered y.entered)

include reference stops entered

/-- **Observers of walks in lockstep up to order see the same up to order.** -/
theorem Site.flatMap_visits_perm {x y : Site} (hxy : R x y) :
    (x.visits.flatMap g).Perm (y.visits.flatMap h) := by
  induction x using Site.inductionOn generalizing y with
  | step x ih =>
      cases href : x.schema.isReference with
      | true =>
          have href' := (reference hxy).symm.trans href
          rw [visits_of_isReference href, visits_of_isReference href']
          exact .refl _
      | false =>
          have href' := (reference hxy).symm.trans href
          have below : ((x.entered.flatMap visits).flatMap g).Perm
              ((y.entered.flatMap visits).flatMap h) := by
            rw [List.flatMap_assoc, List.flatMap_assoc]
            exact (entered hxy href).perm_flatMap fun z hz z' hzz' => ih z hz hzz'
          have split := (visits_perm href).flatMap_right g
          have split' := (visits_perm href').flatMap_right h
          rw [List.flatMap_append] at split split'
          exact split.trans (((stops hxy href).append below).trans split'.symm)

theorem Document.flatMap_visits_perm {d e : Document} (hde : List.Forall₂ R d.sites e.sites) :
    (d.visits.flatMap g).Perm (e.visits.flatMap h) := by
  rw [visits_eq_flatMap, visits_eq_flatMap, List.flatMap_assoc, List.flatMap_assoc]
  exact flatMap_perm_of_forall₂ hde fun x _ y hxy =>
    Site.flatMap_visits_perm reference stops entered hxy

end Walks

end SchemaAudit
