/-
**What identifies an issue.**

No two findings of a document have the same code and the same place, whatever the document is
called upon to hold.  Issues do not show places but their paths, and a path identifies its place
only as long as no name of the document can be confused with one that stands beside it: that is,
as long as none is the other one, a slash, and more.

Main definitions:

* `Finding.key` — the code and the place of a finding;
* `Document.HasPlace` — the places of a document that a walk reaches;
* `Document.Beside` — names that stand side by side; `Document.NamesApart` — none of them can be
  confused.

Main results:

* `Document.nodup_keys` — **no two findings have the same code and the same place**;
* `Document.hasPlace_of_mem_findings` — findings are made at places that a walk reaches;
* `Document.paths_identify` — **when paths identify places and issues**;
* `Document.exists_not_nodup_paths` — a slash in a name may give two issues the same code and path.
-/

import SchemaAudit.Proofs.Paths
import SchemaAudit.Proofs.Sources

set_option relaxedAutoImplicit false
set_option autoImplicit false

namespace SchemaAudit

/-! ### Findings at one stop -/

/-- The code and the place of a finding. -/
def Finding.key (f : Finding) : Code × Place := (f.problem.code, f.place)

theorem findIf_sublist (condition : Bool) (place : Place) (problem : Problem) :
    (findIf condition place problem).Sublist [⟨place, problem⟩] := by
  cases condition with
  | false => exact List.nil_sublist _
  | true => exact List.Sublist.refl _

/-- What is found for some elements of a list is part of what would be found for all. -/
theorem flatMap_findIf_sublist {α : Type} (l : List α) (condition : α → Bool) (place : α → Place)
    (problem : α → Problem) :
    (l.flatMap fun a => findIf (condition a) (place a) (problem a)).Sublist
      (l.map fun a => ⟨place a, problem a⟩) := by
  induction l with
  | nil => exact List.Sublist.refl _
  | cons a l ih => exact (findIf_sublist (condition a) (place a) (problem a)).append ih

/-- Findings with some codes and findings with other codes have different keys. -/
theorem nodup_keys_append (codes : List Code) {l l' : List Finding}
    (hl : (l.map Finding.key).Nodup) (hl' : (l'.map Finding.key).Nodup)
    (h : ∀ f ∈ l, f.problem.code ∈ codes) (h' : ∀ f ∈ l', f.problem.code ∉ codes) :
    ((l ++ l').map Finding.key).Nodup := by
  rw [List.map_append]
  refine List.nodup_append.2 ⟨hl, hl', fun k hk k' hk' heq => ?_⟩
  obtain ⟨f, hf, rfl⟩ := List.mem_map.1 hk
  obtain ⟨g, hg, rfl⟩ := List.mem_map.1 hk'
  have heq : f.problem.code = g.problem.code := congrArg Prod.fst heq
  exact h' g hg (heq ▸ h f hf)

theorem nodup_keys_findIf (condition : Bool) (place : Place) (problem : Problem) :
    ((findIf condition place problem).map Finding.key).Nodup :=
  List.Nodup.sublist ((findIf_sublist condition place problem).map _) (by simp)

theorem nodup_keys_scaleFindings (place : Place) (s : Schema) :
    ((scaleFindings place s).map Finding.key).Nodup := by
  have sublist : (scaleFindings place s).Sublist
      [⟨place.step (.composition .anyOf), .composition .anyOf⟩,
        ⟨place.step (.composition .oneOf), .composition .oneOf⟩,
        ⟨place.step (.composition .allOf), .composition .allOf⟩,
        ⟨place, .openObject⟩, ⟨place, .missingType⟩, ⟨place, .mixedType s.typeList⟩] :=
    (((((findIf_sublist _ _ _).append (findIf_sublist _ _ _)).append (findIf_sublist _ _ _)).append
      (findIf_sublist _ _ _)).append (findIf_sublist _ _ _)).append (findIf_sublist _ _ _)
  refine List.Nodup.sublist (sublist.map _) ?_
  simp [Finding.key, Problem.code]

theorem nodup_keys_nameFindings (convention : NamingConvention) (place : Place)
    {names : List String} (h : names.Nodup) :
    ((nameFindings convention place names).map Finding.key).Nodup := by
  refine List.Nodup.sublist ((flatMap_findIf_sublist names _ _ _).map _) ?_
  rw [List.map_map]
  exact h.map fun name other heq => by simpa [Finding.key, Problem.code] using heq

/-- A scan makes its findings in different places. -/
theorem pairwise_places_tagFindings (place : Place) (field : String) (seen : List String)
    {variants : List (Nat × Schema)} (h : variants.Pairwise fun v w => v.1 ≠ w.1) :
    (tagFindings place field seen variants).Pairwise fun f g => f.place ≠ g.place := by
  induction variants generalizing seen with
  | nil => exact List.Pairwise.nil
  | cons variant rest ih =>
      obtain ⟨index, s⟩ := variant
      obtain ⟨hindex, hrest⟩ := List.pairwise_cons.1 h
      -- what is found later lies below other branches
      have later : ∀ {f : Finding}, (place.step (.branch index)).Under f.place → ∀ seen,
          ∀ g ∈ tagFindings place field seen rest, f.place ≠ g.place := by
        intro f hf seen g hg heq
        obtain ⟨w, hw, hscan⟩ := scanFinding_of_mem_tagFindings hg
        have hunder : (place.step (.branch w.1)).Under g.place := by
          cases hscan with
          | missing => exact .refl
          | unset => exact Place.under_step _ _
          | again tag => exact Place.under_step _ _
        refine Place.apart_step (fun hstep => ?_) _ hf (heq ▸ hunder)
        exact hindex w hw (Step.branch.inj hstep)
      rw [tagFindings_cons]
      split
      · exact List.pairwise_cons.2 ⟨later .refl _, ih _ hrest⟩
      · exact List.pairwise_cons.2 ⟨later (Place.under_step _ _) _, ih _ hrest⟩
      · exact ih _ hrest
      · split
        · exact List.pairwise_cons.2 ⟨later (Place.under_step _ _) _, ih _ hrest⟩
        · exact ih _ hrest

namespace Union

variable {config : Config} {u : Union}

theorem pairwise_index_ne (u : Union) : u.variants.Pairwise fun v w => v.1 ≠ w.1 :=
  u.pairwise_lt_variants.imp fun h => Nat.ne_of_lt h

theorem nodup_keys_verdictFindings (u : Union) (verdict : Verdict) :
    ((u.verdictFindings verdict).map Finding.key).Nodup := by
  have scan : ∀ field, ((tagFindings u.place field [] u.variants).map Finding.key).Nodup :=
    fun field => List.pairwise_map.2 ((pairwise_places_tagFindings u.place field []
      u.pairwise_index_ne).imp fun h heq => h (congrArg Prod.snd heq))
  rw [verdictFindings_eq]
  refine nodup_keys_append [.unionNoDiscriminator] (nodup_keys_findIf _ _ _) ?_ ?_ ?_
  · cases verdict.field? with
    | none => exact List.nodup_nil
    | some field => exact scan field
  · intro f hf
    rw [(mem_findIf_iff.1 hf).2]
    exact List.mem_cons_self
  · intro f hf
    cases hfield : verdict.field? with
    | none => simp [hfield] at hf
    | some field =>
        rw [hfield] at hf
        obtain ⟨_, -, hscan⟩ := scanFinding_of_mem_tagFindings hf
        exact (by decide : ∀ code ∈ Code.ofTags, code ∉ [Code.unionNoDiscriminator]) _
          hscan.code_mem

theorem nodup_keys_openFindings (u : Union) : (u.openFindings.map Finding.key).Nodup := by
  refine List.Nodup.sublist ((flatMap_findIf_sublist u.variants _ _ _).map _) ?_
  rw [List.map_map]
  refine List.pairwise_map.2 (u.pairwise_index_ne.imp fun h heq => h ?_)
  simpa [Finding.key] using heq

theorem nodup_keys_findings (config : Config) (u : Union) :
    ((u.findings config).map Finding.key).Nodup := by
  have large : ∀ f ∈ findIf (config.maxUnionVariants < u.branches.length) u.place
      (.largeUnion u.branches.length config.maxUnionVariants), f.problem.code = .largeUnion :=
    fun f hf => by rw [(mem_findIf_iff.1 hf).2]; rfl
  have nested : ∀ f ∈ findIf (config.maxUnionDepth ≤ u.depth) u.place
      (.nestedUnion (u.depth + 1) config.maxUnionDepth), f.problem.code = .nestedUnion :=
    fun f hf => by rw [(mem_findIf_iff.1 hf).2]; rfl
  have tagged : ∀ f ∈ u.verdictFindings (u.verdict config.tagFields),
      f.problem.code ∈ .unionNoDiscriminator :: Code.ofTags := fun f hf =>
    List.mem_cons.2 (code_of_mem_verdictFindings hf)
  rw [findings]
  split
  · refine nodup_keys_append (.largeUnion :: .nestedUnion :: .unionNoDiscriminator :: Code.ofTags)
      (nodup_keys_append [.largeUnion, .nestedUnion]
        (nodup_keys_append [.largeUnion] (nodup_keys_findIf _ _ _) (nodup_keys_findIf _ _ _)
          ?_ ?_) (u.nodup_keys_verdictFindings _) ?_ ?_) u.nodup_keys_openFindings ?_ ?_
    · intro f hf
      simp [large f hf]
    · intro f hf
      simp [nested f hf]
    · intro f hf
      rcases List.mem_append.1 hf with hf | hf
      · simp [large f hf]
      · simp [nested f hf]
    · intro f hf
      exact (by decide : ∀ code ∈ .unionNoDiscriminator :: Code.ofTags,
        code ∉ [Code.largeUnion, .nestedUnion]) _ (tagged f hf)
    · intro f hf
      rcases List.mem_append.1 hf with hf | hf
      · rcases List.mem_append.1 hf with hf | hf
        · simp [large f hf]
        · simp [nested f hf]
      · exact List.mem_cons_of_mem _ (List.mem_cons_of_mem _ (tagged f hf))
    · intro f hf
      rw [code_of_mem_openFindings hf]
      decide
  · exact List.nodup_nil

end Union

/-! ### The stop at which a finding is made -/

/-- The union to which a place within it belongs: that of a branch, or that of the branch of a
property. -/
def Place.union : Place → Place
  | .step p (.branch _) => p
  | .step (.step p (.branch _)) (.property _) => p
  | p => p

/-- The label of the stop at which a code is reported at a place. -/
def Code.label (code : Code) (place : Place) : Bool × Place :=
  match code with
  | .invalidPropertyCase => (true, place.parent)
  | .compositionDisallowed => (false, place.parent)
  | .missingConst | .duplicateConstValue | .additionalProperties => (false, place.union)
  | _ => (false, place)

/-- **The key of a finding tells the stop at which it was made.** -/
theorem Visit.label_eq_of_mem_findings {config : Config} {v : Visit} {f : Finding}
    (h : f ∈ v.findings config) : v.label = f.key.1.label f.key.2 := by
  cases v with
  | schema place s =>
      rw [Visit.findings] at h
      split at h
      · simp only [scaleFindings, compositionFindings, List.mem_append, mem_findIf_iff] at h
        rcases h with
          ((((⟨-, rfl⟩ | ⟨-, rfl⟩) | ⟨-, rfl⟩) | ⟨-, rfl⟩) | ⟨-, rfl⟩) | ⟨-, rfl⟩ <;> rfl
      · cases h
  | union u =>
      cases Union.finds_of_mem_findings h with
      | large => rfl
      | nested => rfl
      | untagged => rfl
      | scan _ hscan => cases hscan <;> rfl
      | openVariant => rfl
  | names place names =>
      obtain ⟨name, -, h⟩ := List.mem_flatMap.1 h
      obtain ⟨-, rfl⟩ := mem_findIf_iff.1 h
      rfl

theorem Visit.nodup_keys_findings {config : Config} {v : Visit}
    (h : ∀ place names, v = .names place names → names.Nodup) :
    ((v.findings config).map Finding.key).Nodup := by
  cases v with
  | schema place s =>
      rw [Visit.findings]
      split
      · exact nodup_keys_scaleFindings place s
      · exact List.nodup_nil
  | union u => exact u.nodup_keys_findings config
  | names place names => exact nodup_keys_nameFindings _ _ (h place names rfl)

namespace Document

variable {config : Config} {d : Document}

theorem nodup_names_of_sorted {α : Type} {m : NameMap α} (h : m.Sorted) : m.names.Nodup :=
  List.pairwise_map.2 (h.imp fun {a b} hab heq => absurd hab (by simp [heq]))

/-- **No two findings of a document have the same code and the same place.** -/
theorem nodup_keys (config : Config) (d : Document) :
    ((d.findings config).map Finding.key).Nodup := by
  rw [findings, List.map_flatMap]
  refine List.nodup_flatMap.2 ⟨fun v hv => Visit.nodup_keys_findings ?_, ?_⟩
  · rintro place names rfl
    obtain ⟨x, hx, -, -, rfl⟩ := mem_visits_names_iff.1 hv
    exact nodup_names_of_sorted hx.sorted.properties
  · -- a common key would give two stops the same label
    refine (List.pairwise_map.1 d.nodup_labels).imp fun {v w} hvw k hk hk' => ?_
    obtain ⟨f, hf, rfl⟩ := List.mem_map.1 hk
    obtain ⟨g, hg, hkey⟩ := List.mem_map.1 hk'
    refine hvw ?_
    rw [Visit.label_eq_of_mem_findings hf, Visit.label_eq_of_mem_findings hg, hkey]

/-! ### Places of a document -/

/-- **The places that a walk reaches**: schemas, their lists of branches, the slots of unions, and
the names of properties. -/
inductive HasPlace (d : Document) : Place → Prop
  | schema {x : Site} : d.Reaches x → d.HasPlace x.place
  | branches {x : Site} {keyword : Composition} : d.Reaches x → x.schema.isReference = false →
      x.schema.branches keyword ≠ [] → d.HasPlace (x.place.step (.composition keyword))
  | slot {u : Union} {index : Nat} : d.Meets u → index < u.branches.length →
      d.HasPlace (u.place.step (.branch index))
  | name {x : Site} {name : String} : d.Reaches x → x.schema.isReference = false →
      name ∈ x.schema.properties.names → d.HasPlace (x.place.step (.property name))

/-- **Names that stand side by side**: the properties of one schema that is reached, or the
definitions of one group. -/
inductive Beside (d : Document) : String → String → Prop
  | properties {x : Site} {name other : String} : d.Reaches x → x.schema.isReference = false →
      name ∈ x.schema.properties.names → other ∈ x.schema.properties.names → d.Beside name other
  | definitions {group : DefinitionGroup} {name other : String} {s t : Schema} :
      (name, some s) ∈ d.entries group → (other, some t) ∈ d.entries group → d.Beside name other

/-- No name is one that stands beside it, a slash, and more. -/
def NamesApart (d : Document) : Prop :=
  ∀ name other, d.Beside name other → ¬LongerBySlash name other

/-- Findings are made at places that a walk reaches. -/
theorem hasPlace_of_mem_findings {f : Finding} (h : f ∈ d.findings config) :
    d.HasPlace f.place := by
  cases finds_of_mem_findings h with
  | @scale x f hx href hf =>
      simp only [scaleFindings, compositionFindings, List.mem_append, mem_findIf_iff] at hf
      have branches : ∀ keyword, (!(x.schema.branches keyword).isEmpty) = true →
          d.HasPlace (x.place.step (.composition keyword)) := fun keyword hne =>
        .branches hx href (by simpa using hne)
      rcases hf with ((((⟨hne, rfl⟩ | ⟨hne, rfl⟩) | ⟨hne, rfl⟩) | ⟨-, rfl⟩) | ⟨-, rfl⟩) | ⟨-, rfl⟩
      · exact branches .anyOf hne
      · exact branches .oneOf hne
      · exact branches .allOf hne
      · exact .schema hx
      · exact .schema hx
      · exact .schema hx
  | @union u f hu hf =>
      have own : d.HasPlace u.place := by
        obtain ⟨⟨hx, href, -, hne⟩, -⟩ := hu
        exact .branches hx href hne
      have slot : ∀ {index s}, u.HasVariant index s → d.HasPlace (u.place.step (.branch index)) :=
        fun hs => .slot hu.1 (List.getElem?_eq_some_iff.1 hs.1).1
      have tag : ∀ {index s field property}, u.HasVariant index s →
          s.property? field = some property →
          d.HasPlace ((u.place.step (.branch index)).step (.property field)) := by
        intro index s field property hs hproperty
        exact .name (hu.reaches hs) hs.2 (List.mem_map_of_mem (Schema.mem_of_property? hproperty))
      cases hf with
      | large => exact own
      | nested => exact own
      | untagged => exact own
      | tag _ hbreaks hf =>
          cases hbreaks with
          | absent => cases hf
          | missing hs _ => exact List.mem_singleton.1 hf ▸ slot hs
          | unset hs hproperty _ => exact List.mem_singleton.1 hf ▸ tag hs hproperty
          | other => cases hf
          | first => cases hf
          | again hs htag _ =>
              obtain ⟨property, _, hproperty, -, -⟩ := Union.tag?_eq_some_iff.1 htag
              exact List.mem_singleton.1 hf ▸ tag hs hproperty
      | openVariant hs _ => exact slot hs
  | name hx href hname _ => exact .name hx href hname

/-! ### When paths identify places -/

/-- A name on the way to a schema is one of the properties of a schema on that way. -/
theorem Reaches.exists_of_under {y : Site} (hy : d.Reaches y) {r : Place} {name : String}
    (h : (r.step (.property name)).Under y.place) :
    ∃ x, d.Reaches x ∧ x.schema.isReference = false ∧ x.place = r ∧
      name ∈ x.schema.properties.names := by
  induction hy with
  | root => simp [Place.under_origin_iff] at h
  | definition => simp [Place.under_origin_iff] at h
  | @property x other s hx href hs ih =>
      rcases Place.under_step_iff.1 h with h | h
      · obtain ⟨rfl, hstep⟩ := Place.step.inj h
        obtain rfl := Step.property.inj hstep
        exact ⟨x, hx, href, rfl, List.mem_map_of_mem hs⟩
      · exact ih h
  | items _ _ _ ih => exact ih (by simpa [Site.part, Place.under_step_iff] using h)
  | additional _ _ _ ih => exact ih (by simpa [Site.part, Place.under_step_iff] using h)
  | branch _ _ _ _ _ _ ih =>
      exact ih (by simpa [Union.site, Site.union, Place.under_step_iff] using h)

/-- A name on the way to a place is one of the properties of a schema on that way. -/
theorem HasPlace.exists_of_under {q : Place} (hq : d.HasPlace q) {r : Place} {name : String}
    (h : (r.step (.property name)).Under q) :
    ∃ x, d.Reaches x ∧ x.schema.isReference = false ∧ x.place = r ∧
      name ∈ x.schema.properties.names := by
  cases hq with
  | schema hx => exact hx.exists_of_under h
  | branches hx => exact hx.exists_of_under (by simpa [Place.under_step_iff] using h)
  | slot hu =>
      obtain ⟨hx, -, -, -⟩ := hu
      exact hx.exists_of_under (by simpa [Site.union, Place.under_step_iff] using h)
  | @name x other hx href hname =>
      rcases Place.under_step_iff.1 h with h | h
      · obtain ⟨rfl, hstep⟩ := Place.step.inj h
        obtain rfl := Step.property.inj hstep
        exact ⟨x, hx, href, rfl, hname⟩
      · exact hx.exists_of_under h

theorem Reaches.exists_root {x : Site} (h : d.Reaches x) :
    ∃ root ∈ d.roots, root.1 = x.place.start := by
  refine h.inductionOn (motive := fun x => ∃ root ∈ d.roots, root.1 = x.place.start)
    (fun root hroot => ⟨root, hroot, rfl⟩) ?_
  intro x y _ _ hy ih
  rwa [(Site.under_of_mem_entered hy).start_eq]

/-- The way to a place starts at a root of the document. -/
theorem HasPlace.exists_root {q : Place} (h : d.HasPlace q) :
    ∃ root ∈ d.roots, root.1 = q.start := by
  cases h with
  | schema hx => exact hx.exists_root
  | branches hx => exact hx.exists_root
  | slot hu =>
      obtain ⟨hx, -, -, -⟩ := hu
      exact hx.exists_root
  | name hx => exact hx.exists_root

theorem HasPlace.exists_definition {q : Place} (h : d.HasPlace q) {group : DefinitionGroup}
    {name : String} (hq : (Place.origin (.definition group name)).Under q) :
    ∃ s, (name, some s) ∈ d.entries group := by
  obtain ⟨root, hroot, hstart⟩ := h.exists_root
  rcases mem_roots_iff.1 hroot with rfl | ⟨group', name', s, hs, rfl⟩
  · rw [hq.start_eq] at hstart
    cases hstart
  · rw [hq.start_eq] at hstart
    cases hstart
    exact ⟨s, hs⟩

/-- No two schemas are entered at the same place. -/
theorem Reaches.schema_eq {x y : Site} (hx : d.Reaches x) (hy : d.Reaches y)
    (hxref : x.schema.isReference = false) (hyref : y.schema.isReference = false)
    (h : x.place = y.place) : x.schema = y.schema := by
  have hvx := mem_visits_schema_iff.2 ⟨x.depth, hx, hxref⟩
  have hvy := mem_visits_schema_iff.2 ⟨y.depth, hy, hyref⟩
  have heq := List.inj_on_of_nodup_map d.nodup_labels hvx hvy (by simp [Visit.label, h])
  exact (Visit.schema.inj heq).2

/-- Where places of a document clash, names stand side by side that can be confused. -/
theorem HasPlace.exists_beside {p q : Place} (hp : d.HasPlace p) (hq : d.HasPlace q)
    (h : p.Clash q) : ∃ name other, d.Beside name other ∧ LongerBySlash name other := by
  have either : ∀ {name other}, d.Beside name other → d.Beside other name →
      Confusable name other → ∃ name other, d.Beside name other ∧ LongerBySlash name other := by
    rintro name other hbeside hbeside' (hlonger | hlonger)
    · exact ⟨name, other, hbeside, hlonger⟩
    · exact ⟨other, name, hbeside', hlonger⟩
  cases h with
  | property hnames hunder hunder' =>
      obtain ⟨x, hx, hxref, hplace, hname⟩ := hp.exists_of_under hunder
      obtain ⟨y, hy, hyref, rfl, hother⟩ := hq.exists_of_under hunder'
      -- both names are properties of the one schema at that place
      rw [← hx.schema_eq hy hxref hyref hplace] at hother
      exact either (.properties hx hxref hname hother) (.properties hx hxref hother hname) hnames
  | definition hnames hunder hunder' =>
      obtain ⟨s, hs⟩ := hp.exists_definition hunder
      obtain ⟨t, ht⟩ := hq.exists_definition hunder'
      exact either (.definitions hs ht) (.definitions ht hs) hnames

theorem NamesApart.eq_of_path_eq (h : d.NamesApart) {p q : Place} (hp : d.HasPlace p)
    (hq : d.HasPlace q) (hpath : p.path = q.path) : p = q := by
  refine (Place.eq_or_clash_of_path_eq hpath).resolve_right fun hclash => ?_
  obtain ⟨name, other, hbeside, hlonger⟩ := hp.exists_beside hq hclash
  exact h name other hbeside hlonger

/-- Names without slashes cannot be confused. -/
theorem namesApart_of_slash_notMem (h : ∀ name other, d.Beside name other → '/' ∉ other.toList) :
    d.NamesApart := by
  intro name other hbeside hlonger
  obtain ⟨more, rfl⟩ := hlonger
  exact h _ _ hbeside (by simp)

/-- **When paths identify places and issues.**  No two findings have the same code and the same
place; different places with the same path lie below names that can be confused; where no name can
be confused with one that stands beside it, paths identify the places of the document, and codes
and paths its issues; and names without slashes cannot be confused. -/
theorem paths_identify (config : Config) (d : Document) :
    ((d.findings config).map fun f => (f.problem.code, f.place)).Nodup ∧
      (∀ p q : Place, p.path = q.path → p = q ∨ p.Clash q) ∧
      (d.NamesApart →
        (∀ p q, d.HasPlace p → d.HasPlace q → p.path = q.path → p = q) ∧
          ((d.audit config).issues.map fun issue => (issue.code, issue.path)).Nodup) ∧
      ((∀ name other, d.Beside name other → '/' ∉ other.toList) → d.NamesApart) := by
  refine ⟨d.nodup_keys config, fun p q => Place.eq_or_clash_of_path_eq, fun hnames =>
    ⟨fun p q => hnames.eq_of_path_eq, ?_⟩, namesApart_of_slash_notMem⟩
  have keys : (d.audit config).issues.map (fun issue => (issue.code, issue.path)) =
      ((d.findings config).map Finding.key).map fun key => (key.1, key.2.path) := by
    rw [audit, List.map_map, List.map_map]
    rfl
  rw [keys]
  refine List.Nodup.map_on ?_ (d.nodup_keys config)
  intro k hk k' hk' heq
  obtain ⟨f, hf, rfl⟩ := List.mem_map.1 hk
  obtain ⟨g, hg, rfl⟩ := List.mem_map.1 hk'
  obtain ⟨hcode, hpath⟩ := Prod.mk.inj heq
  exact Prod.ext hcode (hnames.eq_of_path_eq (hasPlace_of_mem_findings hf)
    (hasPlace_of_mem_findings hg) hpath)

/-- An object within an object, and one more property beside it. -/
def nested (other : String) (h : "a" < other) : Document where
  root := .object
    { properties := [("a", some (.object { properties := [("B", some .empty)] })),
        (other, some .empty)] }
  sorted_root := by
    refine .object (by simpa [NameMap.Sorted] using h) fun part hpart => ?_
    obtain rfl | rfl : part = .object { properties := [("B", some .empty)] } ∨ part = .empty := by
      simpa [Keywords.mem_subschemas_iff, or_and_right, exists_or] using hpart
    · refine .object (List.pairwise_singleton _ _) fun part hpart => ?_
      obtain rfl : part = .empty := by simpa [Keywords.mem_subschemas_iff] using hpart
      exact Schema.sorted_empty
    · exact Schema.sorted_empty

/-- The lists of names that stand in the properties of schemas. -/
def nameLists (d : Document) : List (List String) :=
  d.visits.filterMap fun
    | .names _ names => some names
    | _ => none

theorem Beside.exists_list {inner : String} {h : "a" < inner} {name other : String}
    (hbeside : (nested inner h).Beside name other) :
    ∃ names ∈ nameLists (nested inner h), name ∈ names ∧ other ∈ names := by
  cases hbeside with
  | @properties x _ _ hx href hname hother =>
      refine ⟨x.schema.properties.names, ?_, hname, hother⟩
      exact List.mem_filterMap.2 ⟨_, mem_visits_names_iff.2 ⟨x, hx, href, rfl, rfl⟩, rfl⟩
  | @definitions group _ _ _ _ hs => cases group <;> cases hs

/-- A slash in a name does no harm where no other name ends in front of it. -/
theorem paths_identify_nested :
    ((nested "b/properties/B" (by decide)).NamesApart ∧
        (((nested "b/properties/B" (by decide)).audit {}).issues.map fun issue =>
          (issue.code, issue.path)).Nodup) ∧
      (∀ name other, (nested "b" (by decide)).Beside name other → '/' ∉ other.toList) ∧
        (nested "b" (by decide)).NamesApart := by
  have apart : (nested "b/properties/B" (by decide)).NamesApart := by
    intro name other hbeside
    obtain ⟨names, hnames, hname, hother⟩ := hbeside.exists_list
    have check : ∀ names ∈ nameLists (nested "b/properties/B" (by decide)), ∀ name ∈ names,
        ∀ other ∈ names, ¬LongerBySlash name other := by decide
    exact check names hnames name hname other hother
  have plain : ∀ name other, (nested "b" (by decide)).Beside name other → '/' ∉ other.toList := by
    intro name other hbeside
    obtain ⟨names, hnames, -, hother⟩ := hbeside.exists_list
    have check : ∀ names ∈ nameLists (nested "b" (by decide)), ∀ other ∈ names,
        '/' ∉ other.toList := by decide
    exact check names hnames other hother
  exact ⟨⟨apart, ((paths_identify {} _).2.2.1 apart).2⟩, plain, (paths_identify {} _).2.2.2 plain⟩

/-- **A slash in a name may give two issues the same code and the same path.** -/
theorem exists_not_nodup_paths :
    ¬∀ (config : Config) (d : Document),
      ((d.audit config).issues.map fun issue => (issue.code, issue.path)).Nodup := by
  intro h
  exact absurd (h {} (nested "a/properties/B" (by decide))) (by decide)

end Document

end SchemaAudit
