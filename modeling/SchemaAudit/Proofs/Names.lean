/-
**Names that do not follow the convention.**

A convention stands for a language, that is a set of names, which is given here by ranges of
characters.  The names that are checked are those that reached schemas declare, whether or not
anything stands behind the name.  This module proves that an audit reports exactly the names outside
the language, each of them once for every schema that declares it.

Main definitions:

* `NamingConvention.Language` — **the names that a convention allows**;
* `Document.Misnames` — a reached schema declares a name outside the language.

Main results:

* `NamingConvention.accepts_iff` — a name is accepted if it is in the language;
* `Document.misnamed_properties_reported` — **the names outside the language are reported, and each
  of them once**.
-/

import SchemaAudit.Proofs.Warnings

set_option relaxedAutoImplicit false
set_option autoImplicit false

namespace SchemaAudit

/-! ### Languages -/

/-- A character of a range. -/
def Between (low high c : Char) : Prop := low ≤ c ∧ c ≤ high

/-- A letter or a digit, of those that ASCII has. -/
def IsWordCharacter (c : Char) : Prop :=
  Between 'a' 'z' c ∨ Between 'A' 'Z' c ∨ Between '0' '9' c

/-- No text at all, or one character between `low` and `high` and then letters and digits. -/
def StartsWithin (low high : Char) (name : String) : Prop :=
  name = "" ∨ ∃ first rest, name.toList = first :: rest ∧ Between low high first ∧
    ∀ c ∈ rest, IsWordCharacter c

/-- Small letters, digits and separators, in any order. -/
def JoinedBy (separator : Char) (name : String) : Prop :=
  ∀ c ∈ name.toList, Between 'a' 'z' c ∨ Between '0' '9' c ∨ c = separator

/-- **The names that a convention allows.** -/
def NamingConvention.Language : NamingConvention → String → Prop
  | .any => fun _ => True
  | .camel => StartsWithin 'a' 'z'
  | .pascal => StartsWithin 'A' 'Z'
  | .snake => JoinedBy '_'
  | .kebab => JoinedBy '-'

theorem isLower_iff {c : Char} : c.isLower = true ↔ Between 'a' 'z' c := by
  simp [Char.isLower, Between, Char.le_def]

theorem isUpper_iff {c : Char} : c.isUpper = true ↔ Between 'A' 'Z' c := by
  simp [Char.isUpper, Between, Char.le_def]

theorem isDigit_iff {c : Char} : c.isDigit = true ↔ Between '0' '9' c := by
  simp [Char.isDigit, Between, Char.le_def]

theorem isAlphanum_iff {c : Char} : c.isAlphanum = true ↔ IsWordCharacter c := by
  rw [Char.isAlphanum, Char.isAlpha, IsWordCharacter, Bool.or_eq_true, Bool.or_eq_true, isUpper_iff,
    isLower_iff, isDigit_iff, or_comm (a := Between 'A' 'Z' c), or_assoc]

namespace NamingConvention

/-- The test for one word, if the first character is tested for a range of letters. -/
theorem isOneWord_iff {first : Char → Bool} {low high : Char}
    (hfirst : ∀ c, first c = true ↔ Between low high c)
    (hword : ∀ c, Between low high c → IsWordCharacter c) {name : String} :
    isOneWord first name.toList = true ↔ StartsWithin low high name := by
  rw [StartsWithin, ← String.toList_inj]
  cases name.toList with
  | nil => simp [isOneWord]
  | cons c rest =>
      simp only [isOneWord, List.all_cons, Bool.and_eq_true, List.all_eq_true, hfirst,
        isAlphanum_iff]
      constructor
      · rintro ⟨hc, -, hrest⟩
        exact .inr ⟨c, rest, rfl, hc, hrest⟩
      · rintro (h | ⟨_, _, ⟨⟩, hc, hrest⟩)
        · cases h
        · exact ⟨hc, hword c hc, hrest⟩

theorem isSeparated_iff {separator : Char} {name : String} :
    isSeparated separator name.toList = true ↔ JoinedBy separator name := by
  simp only [isSeparated, JoinedBy, List.all_eq_true, Bool.or_eq_true, beq_iff_eq, isLower_iff,
    isDigit_iff, or_assoc]

/-- **A name is accepted if it is in the language of the convention.** -/
theorem accepts_iff {convention : NamingConvention} {name : String} :
    convention.accepts name = true ↔ convention.Language name := by
  cases convention with
  | any => exact iff_of_true rfl trivial
  | camel => exact isOneWord_iff (fun _ => isLower_iff) fun _ => .inl
  | pascal => exact isOneWord_iff (fun _ => isUpper_iff) fun _ h => .inr (.inl h)
  | snake => exact isSeparated_iff
  | kebab => exact isSeparated_iff

end NamingConvention

/-! ### Documents -/

namespace Document

variable {d : Document} {config : Config}

/-- A reached schema that is no reference declares a property, whose slot may be empty, under a name
that the convention does not allow. -/
structure Misnames (d : Document) (convention : NamingConvention) (x : Site) (name : String) :
    Prop where
  reached : d.Reaches x
  entered : x.schema.isReference = false
  declared : ∃ slot, (name, slot) ∈ x.schema.properties
  outside : ¬convention.Language name

/-- The finding that reports a name. -/
def misnaming (convention : NamingConvention) (declaration : Site × String) : Finding :=
  ⟨declaration.1.place.step (.property declaration.2), .misnamed declaration.2 convention⟩

/-- Two reached schemas that are no references do not stand in one place. -/
theorem Reaches.eq_of_place_eq {x y : Site} (hx : d.Reaches x) (hy : d.Reaches y)
    (hxref : x.schema.isReference = false) (hyref : y.schema.isReference = false)
    (h : x.place = y.place) : x = y := by
  have depth : x.depth = y.depth := by rw [hx.depth_eq, hy.depth_eq, h]
  have schema := hx.schema_eq hy hxref hyref h
  cases x
  cases y
  simp_all

/-- What is found under the code of misnamed properties are the names outside the language. -/
theorem mem_findings_misnamed_iff {f : Finding} :
    f ∈ (d.findings config).filter (fun f => f.problem.code = .invalidPropertyCase) ↔
      ∃ x name, d.Misnames config.naming x name ∧ misnaming config.naming (x, name) = f := by
  rw [List.mem_filter, decide_eq_true_eq]
  constructor
  · rintro ⟨hf, hcode⟩
    obtain ⟨place, names, hv, hf⟩ := exists_names_of_mem_findings hf hcode
    obtain ⟨x, hx, href, rfl, rfl⟩ := mem_visits_names_iff.1 hv
    obtain ⟨_, hname, hf⟩ := List.mem_flatMap.1 hf
    obtain ⟨⟨name, slot⟩, hslot, rfl⟩ := List.mem_map.1 hname
    obtain ⟨hrejected, rfl⟩ := mem_findIf_iff.1 hf
    refine ⟨x, name, ⟨hx, href, ⟨slot, hslot⟩, fun hallowed => ?_⟩, rfl⟩
    rw [NamingConvention.accepts_iff.2 hallowed] at hrejected
    cases hrejected
  · rintro ⟨x, name, ⟨hx, href, ⟨slot, hslot⟩, houtside⟩, rfl⟩
    refine ⟨List.mem_flatMap.2 ⟨.names x.place x.schema.properties.names, ?_, ?_⟩, rfl⟩
    · exact mem_visits_names_iff.2 ⟨x, hx, href, rfl, rfl⟩
    · refine List.mem_flatMap.2 ⟨name, List.mem_map.2 ⟨_, hslot, rfl⟩, mem_findIf_iff.2 ⟨?_, rfl⟩⟩
      simpa [← NamingConvention.accepts_iff] using houtside

/-- One declaration is reported by one finding. -/
theorem misnaming_injOn {x y : Site} {name other : String}
    (hx : d.Misnames config.naming x name) (hy : d.Misnames config.naming y other)
    (h : misnaming config.naming (x, name) = misnaming config.naming (y, other)) :
    (x, name) = (y, other) := by
  obtain ⟨hplace, hname⟩ := Place.step.inj (congrArg Finding.place h)
  obtain rfl := hx.reached.eq_of_place_eq hy.reached hx.entered hy.entered hplace
  exact Prod.ext rfl (Step.property.inj hname)

/-- **The names outside the language of the convention are reported**, each of them once for every
reached schema that declares it and under the path of the declaration, and nothing else is reported
with that code. -/
theorem misnamed_properties_reported (config : Config) (d : Document) :
    (∃ misnamed : List (Site × String), misnamed.Nodup ∧
      (∀ x name, (x, name) ∈ misnamed ↔ d.Misnames config.naming x name) ∧
      (d.audit config).issues.filter (fun issue => issue.code = .invalidPropertyCase) =
        misnamed.map fun declaration => (misnaming config.naming declaration).issue) ∧
      ∀ x name, (misnaming config.naming (x, name)).issue.path =
        x.place.path ++ "/properties/" ++ name := by
  let reported := (d.findings config).filter fun f => f.problem.code = .invalidPropertyCase
  have nodup : reported.Nodup := (List.Nodup.of_map _ (d.nodup_keys config)).filter _
  -- behind every finding there is a declaration
  have : Nonempty (Site × String) := ⟨⟨.origin .document, 0, d.root⟩, ""⟩
  have behind : ∀ f ∈ reported, ∃ m : Site × String,
      d.Misnames config.naming m.1 m.2 ∧ misnaming config.naming m = f := by
    intro f hf
    obtain ⟨x, name, h⟩ := mem_findings_misnamed_iff.1 hf
    exact ⟨(x, name), h⟩
  choose! declaration hdeclaration using behind
  have hmap : (reported.map declaration).map (misnaming config.naming) = reported := by
    rw [List.map_map]
    exact (List.map_congr_left fun f hf => (hdeclaration f hf).2).trans (List.map_id _)
  refine ⟨⟨reported.map declaration, .of_map _ (hmap ▸ nodup), fun x name => ⟨fun h => ?_,
    fun h => ?_⟩, ?_⟩, fun x name => ?_⟩
  · obtain ⟨f, hf, heq⟩ := List.mem_map.1 h
    simpa only [heq] using (hdeclaration f hf).1
  · have hf : misnaming config.naming (x, name) ∈ reported :=
      mem_findings_misnamed_iff.2 ⟨x, name, h, rfl⟩
    obtain ⟨hm, heq⟩ := hdeclaration _ hf
    rw [misnaming_injOn h hm heq.symm]
    exact List.mem_map_of_mem hf
  · rw [filter_issues config d (fun code => code = .invalidPropertyCase)]
    exact (congrArg (List.map Finding.issue) hmap.symm).trans List.map_map
  · have slashes : "/properties/" = "/" ++ "properties/" := rfl
    rw [slashes, ← String.append_assoc, String.append_assoc]
    rfl

end Document

end SchemaAudit
