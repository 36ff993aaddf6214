/-
**Which settings count.**

Settings come in layers: what is given on the command line, a settings file, the defaults.  For each
value the first layer that sets it counts, and names are looked up only then, so that a name which
is overridden does no harm.  A settings file contributes what is written in it, and one that cannot
be loaded is reported before anything else.

Main definitions:

* `Settings.Values`, `Settings.effective` — **the values that count**, given some layers;
* `Settings.Values.Decides` — what becomes of some values: a configuration or an unknown name;
* `Settings.LayersMerge` — layers may be merged in any grouping;
* `Settings.Counts`, `Settings.FileLayer` — the settings file that counts, which is the given one or
  else the one that is found, and what it contributes;
* `Config.Settles`, `Config.FollowsPrecedence` — what becomes of given settings and a settings file,
  and **how settings follow their precedence**.

Main results:

* `Settings.foldr_orElse` — any number of layers is merged to the first value that is set;
* `Settings.resolve_decides` — merged layers are resolved to the values that count;
* `Settings.FileLayer.ok_iff_of_written` — a settings file is taken at its word;
* `Config.settles_iff` — what settings are resolved to;
* `Config.resolve_follows_precedence` — **the outcome for all settings and files**.
-/

import SchemaAudit.Proofs.Loading
import SchemaAudit.Proofs.SettingsText

set_option relaxedAutoImplicit false
set_option autoImplicit false

namespace SchemaAudit

/-! ### Names -/

/-- A profile is found under its name and under no other one. -/
theorem Profile.ofName?_eq_some_iff {name : String} {profile : Profile} :
    Profile.ofName? name = some profile ↔ profile.name = name := by
  refine ⟨fun h => ?_, fun h => h ▸ ofName?_name profile⟩
  unfold ofName? at h
  split at h <;> cases h <;> rfl

theorem Profile.eq_of_name_eq {profile other : Profile} (h : profile.name = other.name) :
    profile = other :=
  Option.some.inj ((ofName?_name profile).symm.trans (ofName?_eq_some_iff.2 h.symm))

/-- A convention is found under its name and under no other one. -/
theorem NamingConvention.ofName?_eq_some_iff {name : String} {convention : NamingConvention} :
    NamingConvention.ofName? name = some convention ↔ convention.name = name := by
  refine ⟨fun h => ?_, fun h => h ▸ ofName?_name convention⟩
  unfold ofName? at h
  split at h <;> cases h <;> rfl

theorem NamingConvention.eq_of_name_eq {convention other : NamingConvention}
    (h : convention.name = other.name) : convention = other :=
  Option.some.inj ((ofName?_name convention).symm.trans (ofName?_eq_some_iff.2 h.symm))

namespace Settings

/-! ### Layers -/

theorem orElse_assoc (a b c : Settings) : (a.orElse b).orElse c = a.orElse (b.orElse c) := by
  simp only [orElse, Option.orElse_eq_orElse, Option.orElse_eq_or, Option.or_assoc]

theorem orElse_empty (a : Settings) : a.orElse {} = a := by
  simp [orElse]

theorem empty_orElse (a : Settings) : orElse {} a = a := by
  simp [orElse]

/-- **Any number of layers is merged to the first value that is set**, for each value. -/
theorem foldr_orElse (layers : List Settings) :
    layers.foldr orElse {} =
      { profile := layers.findSome? profile
        naming := layers.findSome? naming
        maxUnionVariants := layers.findSome? maxUnionVariants
        maxUnionDepth := layers.findSome? maxUnionDepth
        tagFields := layers.findSome? tagFields } := by
  have first : ∀ {α : Type} (field : Settings → Option α) (layer : Settings) (rest : List Settings),
      (layer :: rest).findSome? field = (field layer <|> rest.findSome? field) := by
    intro α field layer rest
    rw [List.findSome?_cons]
    cases field layer <;> rfl
  induction layers with
  | nil => rfl
  | cons layer rest ih => simp only [List.foldr_cons, ih, orElse, first]

/-- **Layers may be merged in any grouping**, and the empty one adds nothing. -/
structure LayersMerge : Prop where
  assoc : ∀ a b c : Settings, (a.orElse b).orElse c = a.orElse (b.orElse c)
  orElse_empty : ∀ a : Settings, a.orElse {} = a
  empty_orElse : ∀ a : Settings, orElse {} a = a
  /-- Any number of layers gives the first value that is set. -/
  first : ∀ layers : List Settings,
    layers.foldr orElse {} =
      { profile := layers.findSome? profile
        naming := layers.findSome? naming
        maxUnionVariants := layers.findSome? maxUnionVariants
        maxUnionDepth := layers.findSome? maxUnionDepth
        tagFields := layers.findSome? tagFields }

theorem layersMerge : LayersMerge := ⟨orElse_assoc, orElse_empty, empty_orElse, foldr_orElse⟩

/-- Settings in which nothing is left open. -/
structure Values where
  profile : String
  naming : String
  maxUnionVariants : Nat
  maxUnionDepth : Nat
  tagFields : List String

/-- **The values that count**: for each of them the first layer that sets it, or else the
default. -/
def effective (layers : List Settings) : Values :=
  let default : Config := {}
  { profile := (layers.findSome? profile).getD default.profile.name
    naming := (layers.findSome? naming).getD default.naming.name
    maxUnionVariants := (layers.findSome? maxUnionVariants).getD default.maxUnionVariants
    maxUnionDepth := (layers.findSome? maxUnionDepth).getD default.maxUnionDepth
    tagFields := (layers.findSome? tagFields).getD default.tagFields }

/-- The configuration has exactly these values. -/
structure Values.Of (values : Values) (config : Config) : Prop where
  profile : config.profile.name = values.profile
  naming : config.naming.name = values.naming
  maxUnionVariants : config.maxUnionVariants = values.maxUnionVariants
  maxUnionDepth : config.maxUnionDepth = values.maxUnionDepth
  tagFields : config.tagFields = values.tagFields

/-- **What becomes of some values**: the name of the profile is looked up first, then the name of
the convention. -/
inductive Values.Decides (values : Values) : Except Failure Config → Prop
  | unknownProfile (unknown : ∀ profile : Profile, profile.name ≠ values.profile) :
      Decides values (.error (.unknownProfile values.profile))
  | unknownConvention {profile : Profile} (known : profile.name = values.profile)
      (unknown : ∀ convention : NamingConvention, convention.name ≠ values.naming) :
      Decides values (.error (.unknownConvention values.naming))
  | config {config : Config} (same : values.Of config) : Decides values (.ok config)

/-- The values fix the configuration. -/
theorem Values.Of.unique {values : Values} {config other : Config} (h : values.Of config)
    (h' : values.Of other) : config = other := by
  have profile := Profile.eq_of_name_eq (h.profile.trans h'.profile.symm)
  have naming := NamingConvention.eq_of_name_eq (h.naming.trans h'.naming.symm)
  have variants := h.maxUnionVariants.trans h'.maxUnionVariants.symm
  have depth := h.maxUnionDepth.trans h'.maxUnionDepth.symm
  have fields := h.tagFields.trans h'.tagFields.symm
  cases config
  cases other
  simp_all

/-- A profile that is left open is looked up under the name of the default. -/
theorem elim_parse_profile (name : Option String) :
    name.elim (.ok .standard) Profile.parse =
      Profile.parse (name.getD ({} : Config).profile.name) := by
  cases name <;> rfl

/-- A convention that is left open is looked up under the name of the default. -/
theorem elim_parse_naming (name : Option String) :
    name.elim (.ok .camel) NamingConvention.parse =
      NamingConvention.parse (name.getD ({} : Config).naming.name) := by
  cases name <;> rfl

/-- **Merged layers are resolved to the values that count.** -/
theorem resolve_decides (layers : List Settings) :
    (effective layers).Decides (layers.foldr orElse {}).resolve := by
  rw [foldr_orElse]
  simp only [resolve, elim_parse_profile, elim_parse_naming]
  generalize hvalues : effective layers = values
  have hprofile : (layers.findSome? profile).getD ({} : Config).profile.name = values.profile :=
    hvalues ▸ rfl
  have hnaming : (layers.findSome? naming).getD ({} : Config).naming.name = values.naming :=
    hvalues ▸ rfl
  rw [hprofile, hnaming, Profile.parse, NamingConvention.parse]
  cases foundProfile : Profile.ofName? values.profile with
  | none =>
      refine .unknownProfile fun profile hname => ?_
      rw [Profile.ofName?_eq_some_iff.2 hname] at foundProfile
      cases foundProfile
  | some profile =>
      have known := Profile.ofName?_eq_some_iff.1 foundProfile
      cases foundNaming : NamingConvention.ofName? values.naming with
      | none =>
          refine .unknownConvention known fun convention hname => ?_
          rw [NamingConvention.ofName?_eq_some_iff.2 hname] at foundNaming
          cases foundNaming
      | some convention =>
          have naming := NamingConvention.ofName?_eq_some_iff.1 foundNaming
          exact .config ⟨known, naming, hvalues ▸ rfl, hvalues ▸ rfl, hvalues ▸ rfl⟩

namespace Values.Decides

variable {values : Values} {outcome : Except Failure Config}

theorem unknownProfile_iff (h : values.Decides outcome) (name : String) :
    outcome = .error (.unknownProfile name) ↔
      name = values.profile ∧ ∀ profile : Profile, profile.name ≠ name := by
  constructor
  · rintro rfl
    cases h with
    | unknownProfile unknown => exact ⟨rfl, unknown⟩
  · rintro ⟨rfl, unknown⟩
    cases h with
    | unknownProfile => rfl
    | unknownConvention known => exact absurd known (unknown _)
    | config same => exact absurd same.profile (unknown _)

theorem unknownConvention_iff (h : values.Decides outcome) (name : String) :
    outcome = .error (.unknownConvention name) ↔
      (∃ profile : Profile, profile.name = values.profile) ∧ name = values.naming ∧
        ∀ convention : NamingConvention, convention.name ≠ name := by
  constructor
  · rintro rfl
    cases h with
    | unknownConvention known unknown => exact ⟨⟨_, known⟩, rfl, unknown⟩
  · rintro ⟨⟨profile, known⟩, rfl, unknown⟩
    cases h with
    | unknownProfile unknown' => exact absurd known (unknown' _)
    | unknownConvention => rfl
    | config same => exact absurd same.naming (unknown _)

theorem ok_iff (h : values.Decides outcome) (config : Config) :
    outcome = .ok config ↔ values.Of config := by
  constructor
  · rintro rfl
    cases h with
    | config same => exact same
  · intro same
    cases h with
    | unknownProfile unknown => exact absurd same.profile (unknown _)
    | unknownConvention _ unknown => exact absurd same.naming (unknown _)
    | config same' => rw [same'.unique same]

/-- Values fail only by a name that is unknown. -/
theorem exists_name {failure : Failure} (h : values.Decides (.error failure)) :
    ∃ name, failure = .unknownProfile name ∨ failure = .unknownConvention name := by
  cases h with
  | unknownProfile => exact ⟨_, .inl rfl⟩
  | unknownConvention => exact ⟨_, .inr rfl⟩

/-- The values fix the outcome. -/
theorem unique {other : Except Failure Config} (h : values.Decides outcome)
    (h' : values.Decides other) : outcome = other := by
  cases h' with
  | unknownProfile unknown => exact (h.unknownProfile_iff _).2 ⟨rfl, unknown⟩
  | unknownConvention known unknown =>
      exact (h.unknownConvention_iff _).2 ⟨⟨_, known⟩, rfl, unknown⟩
  | config same => exact (h.ok_iff _).2 same

end Values.Decides

/-! ### Files -/

variable {around : Surroundings} {fs : FileSystem} {start : Path} {file : Option Path}

/-- The settings file that counts: the given one, or else the one that is found. -/
inductive Counts (fs : FileSystem) (start : Path) : Option Path → Path → Prop
  | given (p : Path) : Counts fs start (some p) p
  | found {p : Path} (found : discover? fs start = some p) : Counts fs start none p

/-- **What the settings file contributes**: what is loaded from the one that counts, or nothing. -/
inductive FileLayer (around : Surroundings) (fs : FileSystem) (start : Path) (file : Option Path) :
    Except Failure Settings → Prop
  | loaded {p : Path} {layer : Except Failure Settings} (counts : Counts fs start file p)
      (loads : Loads around fs p layer) : FileLayer around fs start file layer
  | missing (missing : ∀ p, ¬Counts fs start file p) : FileLayer around fs start file (.ok {})

theorem counts_iff {p : Path} :
    Counts fs start file p ↔ (file <|> discover? fs start) = some p := by
  constructor
  · rintro (_ | found)
    · rfl
    · exact found
  · intro h
    cases file with
    | some given =>
        obtain rfl := Option.some.inj h
        exact .given given
    | none => exact .found h

theorem fileLayer_iff {layer : Except Failure Settings} :
    FileLayer around fs start file layer ↔ ofFile around fs file start = layer := by
  rw [ofFile]
  constructor
  · rintro (⟨counts, loads⟩ | missing)
    · rw [counts_iff.1 counts]
      exact loads_iff.1 loads
    · simp only [counts_iff, ← Option.eq_none_iff_forall_ne_some] at missing
      rw [missing]
  · rintro rfl
    split
    · exact .loaded (counts_iff.2 ‹_›) (loads_iff.2 rfl)
    · rename_i none
      exact .missing fun p counts => by rw [counts_iff.1 counts] at none; cases none

/-- A file that cannot be loaded is not the failure of a name. -/
theorem FileLayer.known {failure : Failure} (h : FileLayer around fs start file (.error failure))
    (name : String) : failure ≠ .unknownProfile name ∧ failure ≠ .unknownConvention name := by
  cases h with
  | loaded _ loads =>
      cases loads with
      | unread read => cases read <;> exact ⟨nofun, nofun⟩
      | notText => exact ⟨nofun, nofun⟩
      | malformed => exact ⟨nofun, nofun⟩

theorem FileLayer.iff_of_reads {p : Path} {text : String} (counts : Counts fs start file p)
    (read : Reads around fs p (.ok text.toUTF8)) {layer : Except Failure Settings} :
    FileLayer around fs start file layer ↔ parse around p.text text = layer := by
  rw [fileLayer_iff, ofFile, counts_iff.1 counts]
  dsimp only
  rw [load_of_content (reads_iff.1 read), fromUTF8?_toUTF8]

/-- **Settings that are written in the file are what it contributes.** -/
theorem FileLayer.ok_iff_of_written {p : Path} {text : String} {assignments : List Assignment}
    (counts : Counts fs start file p) (read : Reads around fs p (.ok text.toUTF8))
    (written : WrittenIn assignments text) (layer : Settings) :
    FileLayer around fs start file (.ok layer) ↔ layer.GivenBy assignments := by
  rw [FileLayer.iff_of_reads counts read, ← ofText?_eq_some_iff written, parse]
  cases ofText? text <;> simp

/-- A file whose assignments give no settings is malformed. -/
theorem FileLayer.of_malformed {p : Path} {text : String} {assignments : List Assignment}
    (counts : Counts fs start file p) (read : Reads around fs p (.ok text.toUTF8))
    (written : WrittenIn assignments text)
    (none : ∀ layer : Settings, ¬layer.GivenBy assignments) :
    FileLayer around fs start file
      (.error (.malformedSettings p.text (around.settingsRefusal text))) := by
  have refused : ofText? text = Option.none := by
    refine Option.eq_none_iff_forall_ne_some.2 fun layer h => ?_
    exact none layer ((ofText?_eq_some_iff written).1 h)
  rw [FileLayer.iff_of_reads counts read, parse, refused]

end Settings

/-! ### Outcomes -/

namespace Config

open Settings (Counts FileLayer WrittenIn effective)

variable {around : Surroundings} {fs : FileSystem} {start : Path} {file : Option Path}
  {given : Settings}

/-- **What becomes of given settings and a settings file**: the failure to load the file, or else
what the values that count decide. -/
inductive Settles (around : Surroundings) (fs : FileSystem) (given : Settings)
    (file : Option Path) (start : Path) : Except Failure Config → Prop
  | unloaded {failure : Failure} (unloaded : FileLayer around fs start file (.error failure)) :
      Settles around fs given file start (.error failure)
  | decided {layer : Settings} {outcome : Except Failure Config}
      (loaded : FileLayer around fs start file (.ok layer))
      (decides : (effective [given, layer]).Decides outcome) :
      Settles around fs given file start outcome

theorem resolve_of_error {failure : Failure} (h : FileLayer around fs start file (.error failure))
    (given : Settings) : Config.resolve around fs given file start = .error failure := by
  rw [Config.resolve, Settings.fileLayer_iff.1 h]
  rfl

theorem resolve_decides {layer : Settings} (h : FileLayer around fs start file (.ok layer))
    (given : Settings) :
    (effective [given, layer]).Decides (Config.resolve around fs given file start) := by
  have merged : Config.resolve around fs given file start =
      ([given, layer].foldr Settings.orElse {}).resolve := by
    rw [Config.resolve, Settings.fileLayer_iff.1 h, List.foldr_cons, List.foldr_cons,
      List.foldr_nil, Settings.orElse_empty]
    rfl
  rw [merged]
  exact Settings.resolve_decides _

/-- What settings are resolved to. -/
theorem settles_iff {outcome : Except Failure Config} :
    Settles around fs given file start outcome ↔
      Config.resolve around fs given file start = outcome := by
  constructor
  · rintro (unloaded | ⟨loaded, decides⟩)
    · exact resolve_of_error unloaded given
    · exact (resolve_decides loaded given).unique decides
  · rintro rfl
    cases layer : Settings.ofFile around fs file start with
    | error failure =>
        have unloaded := Settings.fileLayer_iff.2 layer
        rw [resolve_of_error unloaded]
        exact .unloaded unloaded
    | ok layer' =>
        have loaded := Settings.fileLayer_iff.2 layer
        exact .decided loaded (resolve_decides loaded given)

/-- Names are looked up only when the settings file has been loaded. -/
theorem exists_layer_of_unknown {failure : Failure} {name : String}
    (hunknown : failure = .unknownProfile name ∨ failure = .unknownConvention name)
    (h : Config.resolve around fs given file start = .error failure) :
    ∃ layer, FileLayer around fs start file (.ok layer) := by
  cases settles_iff.2 h with
  | unloaded unloaded =>
      obtain ⟨profile, convention⟩ := unloaded.known name
      exact (hunknown.elim profile convention).elim
  | decided loaded => exact ⟨_, loaded⟩

/-- A known profile that is given is not overridden by an unknown one. -/
theorem resolve_ne_unknownProfile {profile : Profile} (h : given.profile = some profile.name)
    (name : String) :
    Config.resolve around fs given file start ≠ .error (.unknownProfile name) := by
  intro hresolve
  obtain ⟨layer, hlayer⟩ := exists_layer_of_unknown (.inl rfl) hresolve
  obtain ⟨rfl, unknown⟩ := ((resolve_decides hlayer given).unknownProfile_iff name).1 hresolve
  exact unknown profile (by simp [effective, h])

/-- A known convention that is given is not overridden by an unknown one. -/
theorem resolve_ne_unknownConvention {convention : NamingConvention}
    (h : given.naming = some convention.name) (name : String) :
    Config.resolve around fs given file start ≠ .error (.unknownConvention name) := by
  intro hresolve
  obtain ⟨layer, hlayer⟩ := exists_layer_of_unknown (.inr rfl) hresolve
  obtain ⟨-, rfl, unknown⟩ :=
    ((resolve_decides hlayer given).unknownConvention_iff name).1 hresolve
  exact unknown convention (by simp [effective, h])

/-- **Settings follow their precedence**, for one settings file that is given or looked for. -/
structure FollowsPrecedence (around : Surroundings) (fs : FileSystem) (file : Option Path)
    (start : Path) : Prop where
  /-- There is one thing that the settings file contributes. -/
  layer : ∃! layer, FileLayer around fs start file layer
  /-- Settings that are written in the file are what it contributes. -/
  written : ∀ p text assignments, Counts fs start file p →
    Reads around fs p (.ok text.toUTF8) → WrittenIn assignments text →
      ∀ layer, FileLayer around fs start file (.ok layer) ↔ layer.GivenBy assignments
  /-- A file whose assignments give no settings is malformed. -/
  malformed : ∀ p text assignments, Counts fs start file p →
    Reads around fs p (.ok text.toUTF8) → WrittenIn assignments text →
      (∀ layer : Settings, ¬layer.GivenBy assignments) →
        FileLayer around fs start file
          (.error (.malformedSettings p.text (around.settingsRefusal text)))
  /-- A settings file that cannot be loaded is reported, whatever is given. -/
  unloaded : ∀ failure, FileLayer around fs start file (.error failure) →
    ∀ given, Config.resolve around fs given file start = .error failure
  /-- A profile is reported exactly if it counts and is unknown. -/
  unknownProfile : ∀ layer, FileLayer around fs start file (.ok layer) → ∀ given name,
    Config.resolve around fs given file start = .error (.unknownProfile name) ↔
      name = (effective [given, layer]).profile ∧ ∀ profile : Profile, profile.name ≠ name
  /-- A convention is reported exactly if it counts and is unknown, and the profile is known. -/
  unknownConvention : ∀ layer, FileLayer around fs start file (.ok layer) → ∀ given name,
    Config.resolve around fs given file start = .error (.unknownConvention name) ↔
      (∃ profile : Profile, profile.name = (effective [given, layer]).profile) ∧
        name = (effective [given, layer]).naming ∧
        ∀ convention : NamingConvention, convention.name ≠ name
  /-- Otherwise the configuration has exactly the values that count. -/
  resolved : ∀ layer, FileLayer around fs start file (.ok layer) → ∀ given config,
    Config.resolve around fs given file start = .ok config ↔ (effective [given, layer]).Of config
  /-- Once the file is loaded, only names are reported. -/
  onlyNames : ∀ layer, FileLayer around fs start file (.ok layer) → ∀ given failure,
    Config.resolve around fs given file start = .error failure →
      ∃ name, failure = .unknownProfile name ∨ failure = .unknownConvention name
  /-- A profile in the file that a known one overrides does no harm. -/
  profileOverridden : ∀ (given : Settings) (profile : Profile),
    given.profile = some profile.name →
      ∀ name, Config.resolve around fs given file start ≠ .error (.unknownProfile name)
  /-- A convention in the file that a known one overrides does no harm. -/
  conventionOverridden : ∀ (given : Settings) (convention : NamingConvention),
    given.naming = some convention.name →
      ∀ name, Config.resolve around fs given file start ≠ .error (.unknownConvention name)

/-- **The outcome for all settings and files.**  A settings file that applies and cannot be loaded
is reported, whatever is given.  Otherwise the values that count decide: the profile first, then the
convention, and else the configuration has just these values.  Layers may be merged in any grouping,
and the empty one adds nothing. -/
theorem resolve_follows_precedence (around : Surroundings) (fs : FileSystem) (file : Option Path)
    (start : Path) :
    FollowsPrecedence around fs file start ∧ Settings.LayersMerge := by
  refine ⟨?_, Settings.layersMerge⟩
  exact {
    layer := ⟨_, Settings.fileLayer_iff.2 rfl, fun _ h => (Settings.fileLayer_iff.1 h).symm⟩
    written := fun p text assignments => FileLayer.ok_iff_of_written
    malformed := fun p text assignments => FileLayer.of_malformed
    unloaded := fun failure => resolve_of_error
    unknownProfile := fun layer h given => (resolve_decides h given).unknownProfile_iff
    unknownConvention := fun layer h given => (resolve_decides h given).unknownConvention_iff
    resolved := fun layer h given => (resolve_decides h given).ok_iff
    onlyNames := fun layer h given failure hfailure =>
      (hfailure ▸ resolve_decides h given).exists_name
    profileOverridden := fun given profile => resolve_ne_unknownProfile
    conventionOverridden := fun given convention => resolve_ne_unknownConvention }

example : (Settings.orElse { profile := some "scale", maxUnionDepth := some 5 }
    { profile := some "strict", maxUnionDepth := some 1, naming := some "none" }).resolve =
      .ok { profile := .scale, maxUnionDepth := 5, naming := .any } := by
  rfl

end Config

end SchemaAudit
