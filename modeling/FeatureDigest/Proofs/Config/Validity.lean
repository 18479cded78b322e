import FeatureDigest.Config.Discovery

/-!
# Valid configurations

A configuration is valid when every entry of its ignores compiles and some extension is not blank
(`Config.validate_eq_ok_iff`); otherwise the first entry that does not compile is named, whatever
the extensions are (`Config.validate_eq_ignore_iff`).  The entries of a valid configuration are
parted in order into patterns and paths, and none is lost (`Config.parted_of_validate`).  What is
loaded is valid (`Config.validate_of_load`).
-/

set_option autoImplicit false

namespace FeatureDigest

/-- The text is a pattern. -/
def Glob.Compiles (entry : String) : Prop := ∃ pattern, compile entry = .ok pattern

/-- The entry has a wildcard. -/
def Wild (entry : String) : Prop := '*' ∈ entry.toList ∨ '?' ∈ entry.toList

instance : DecidablePred Wild := fun _ => inferInstanceAs (Decidable (_ ∨ _))

theorem isGlob_eq_decide (entry : String) : isGlob entry = decide (Wild entry) := by
  rw [isGlob, Bool.eq_iff_iff, List.any_eq_true, decide_eq_true_iff]
  simp only [Bool.or_eq_true, beq_iff_eq, Wild]
  constructor
  · rintro ⟨c, hc, rfl | rfl⟩
    · exact Or.inl hc
    · exact Or.inr hc
  · rintro (hc | hc)
    · exact ⟨_, hc, Or.inl rfl⟩
    · exact ⟨_, hc, Or.inr rfl⟩

namespace Glob

theorem compiles_of_ok {entry : String} {pattern : Pattern} (h : compile entry = .ok pattern) :
    Compiles entry := ⟨pattern, h⟩

theorem not_compiles_of_error {entry : String} {fault : Fault} (h : compile entry = .error fault) :
    ¬ Compiles entry := by
  rintro ⟨pattern, hpattern⟩
  cases h.symm.trans hpattern

/-- A pattern keeps the text that it was read from. -/
theorem source_of_compile {entry : String} {pattern : Pattern} (h : compile entry = .ok pattern) :
    pattern.source = entry := by
  unfold compile at h
  cases htokens : readTokens .start entry.toList with
  | error fault =>
    rw [htokens] at h
    cases h
  | ok tokens =>
    rw [htokens] at h
    cases h
    rfl

end Glob

namespace Config

open Glob (Compiles)

/-! ## Validity -/

theorem checkIgnores_eq_ok_iff {entries : List String} :
    checkIgnores entries = .ok () ↔ ∀ entry ∈ entries, Compiles entry := by
  induction entries with
  | nil => exact iff_of_true rfl nofun
  | cons entry entries ih =>
    rw [checkIgnores, List.forall_mem_cons]
    cases hentry : Glob.compile entry with
    | ok pattern => simp only [ih, Glob.compiles_of_ok hentry, true_and]
    | error fault => simp only [Glob.not_compiles_of_error hentry, false_and, reduceCtorEq]

/-- The check of the ignores names the first entry that does not compile. -/
theorem checkIgnores_eq_error_iff {entries : List String} {invalid : Invalid} :
    checkIgnores entries = .error invalid
      ↔ ∃ before entry after fault, entries = before ++ entry :: after ∧
          (∀ other ∈ before, Compiles other) ∧ Glob.compile entry = .error fault ∧
          invalid = .ignore entry fault := by
  induction entries with
  | nil => simp [checkIgnores]
  | cons first entries ih =>
    rw [checkIgnores]
    constructor
    · intro h
      cases hfirst : Glob.compile first with
      | ok pattern =>
        rw [hfirst] at h
        obtain ⟨before, entry, after, fault, rfl, hbefore, hentry, rfl⟩ := ih.1 h
        exact ⟨first :: before, entry, after, fault, rfl,
          List.forall_mem_cons.2 ⟨⟨pattern, hfirst⟩, hbefore⟩, hentry, rfl⟩
      | error fault =>
        rw [hfirst] at h
        cases h
        exact ⟨[], first, entries, fault, rfl, nofun, hfirst, rfl⟩
    · rintro ⟨before, entry, after, fault, hentries, hbefore, hentry, rfl⟩
      cases before with
      | nil =>
        cases hentries
        rw [hentry]
      | cons other before =>
        cases hentries
        obtain ⟨⟨pattern, hpattern⟩, hbefore⟩ := List.forall_mem_cons.1 hbefore
        rw [hpattern]
        exact ih.2 ⟨before, entry, after, fault, rfl, hbefore, hentry, rfl⟩

/-- All extensions are blank. -/
def Extensionless (config : Config) : Prop :=
  ∀ extension ∈ config.extensions, ∀ c ∈ extension.toList, Text.isBlank c = true

theorem extensionless_iff {config : Config} :
    config.Extensionless
      ↔ (config.extensions.all fun extension => Text.allBlank extension.toList) = true := by
  simp only [Extensionless, Text.allBlank, List.all_eq_true]

/-- The ignores are checked before the extensions. -/
theorem validate_cases (config : Config) :
    (∃ invalid, checkIgnores config.ignores = .error invalid ∧
        config.validate = .error invalid) ∨
      checkIgnores config.ignores = .ok () ∧
        ((config.Extensionless ∧ config.validate = .error .noExtension) ∨
          (¬ config.Extensionless ∧ config.validate = .ok ())) := by
  rw [extensionless_iff, validate]
  cases hignores : checkIgnores config.ignores with
  | error invalid => exact Or.inl ⟨invalid, rfl, rfl⟩
  | ok _ =>
    refine Or.inr ⟨rfl, ?_⟩
    cases hblank : config.extensions.all fun extension => Text.allBlank extension.toList with
    | true => exact Or.inl ⟨rfl, rfl⟩
    | false => exact Or.inr ⟨Bool.false_ne_true, rfl⟩

theorem validate_eq_ok_iff {config : Config} :
    config.validate = .ok ()
      ↔ (∀ entry ∈ config.ignores, Compiles entry) ∧ ¬ config.Extensionless := by
  rw [← checkIgnores_eq_ok_iff]
  rcases config.validate_cases with
    ⟨invalid, hignores, hvalidate⟩ | ⟨hignores, ⟨hblank, hvalidate⟩ | ⟨hblank, hvalidate⟩⟩
  · simp [hignores, hvalidate]
  · simp [hignores, hvalidate, hblank]
  · simp [hignores, hvalidate, hblank]

/-- The first entry that does not compile is named, whatever the extensions are. -/
theorem validate_eq_ignore_iff {config : Config} {entry : String} {fault : Glob.Fault} :
    config.validate = .error (.ignore entry fault)
      ↔ ∃ before after, config.ignores = before ++ entry :: after ∧
          (∀ other ∈ before, Compiles other) ∧ Glob.compile entry = .error fault := by
  have hchecked : config.validate = .error (.ignore entry fault)
      ↔ checkIgnores config.ignores = .error (.ignore entry fault) := by
    rcases config.validate_cases with
      ⟨invalid, hignores, hvalidate⟩ | ⟨hignores, ⟨_, hvalidate⟩ | ⟨_, hvalidate⟩⟩ <;>
      simp [hignores, hvalidate]
  rw [hchecked, checkIgnores_eq_error_iff]
  constructor
  · rintro ⟨before, other, after, cause, hentries, hbefore, hother, heq⟩
    cases heq
    exact ⟨before, after, hentries, hbefore, hother⟩
  · rintro ⟨before, after, hentries, hbefore, hentry⟩
    exact ⟨before, entry, after, fault, hentries, hbefore, hentry, rfl⟩

/-- The extensions are complained about only when every entry compiles. -/
theorem validate_eq_noExtension_iff {config : Config} :
    config.validate = .error .noExtension
      ↔ (∀ entry ∈ config.ignores, Compiles entry) ∧ config.Extensionless := by
  rw [← checkIgnores_eq_ok_iff]
  rcases config.validate_cases with
    ⟨invalid, hignores, hvalidate⟩ | ⟨hignores, ⟨hblank, hvalidate⟩ | ⟨hblank, hvalidate⟩⟩
  · obtain ⟨before, entry, after, fault, _, _, _, rfl⟩ := checkIgnores_eq_error_iff.1 hignores
    simp [hignores, hvalidate]
  · simp [hignores, hvalidate, hblank]
  · simp [hignores, hvalidate, hblank]

/-- What is loaded is valid, from a file or not. -/
theorem validate_of_load {tree : FileTree} {start : Path} {loaded : Loaded}
    (h : load tree start = .ok loaded) : loaded.config.validate = .ok () := by
  unfold load at h
  cases hfile : findFile? tree start with
  | none =>
    rw [hfile] at h
    cases h
    rfl
  | some path =>
    simp only [hfile] at h
    unfold ofFile at h
    cases hread : tree.readText path with
    | error cause =>
      rw [hread] at h
      cases h
    | ok text =>
      simp only [hread] at h
      cases hconfig : ofText text with
      | error cause =>
        rw [hconfig] at h
        cases h
      | ok config =>
        simp only [hconfig] at h
        cases hvalid : config.validate with
        | error cause =>
          rw [hvalid] at h
          cases h
        | ok _ =>
          rw [hvalid] at h
          cases h
          exact hvalid

/-! ## Patterns and paths -/

/-- Patterns and paths are what entries say, one for each: patterns for those with a wildcard,
and paths for the others, both in their order. -/
structure Parted (entries : List String) (patterns : List Glob.Pattern) (paths : List Path) :
    Prop where
  sources : patterns.map Glob.Pattern.source = entries.filter fun entry => Wild entry
  compiled : ∀ pattern ∈ patterns, Glob.compile pattern.source = .ok pattern
  texts : paths.map Path.text = entries.filter fun entry => ¬ Wild entry
  length : patterns.length + paths.length = entries.length

/-- Nothing is lost from entries that compile. -/
theorem map_source_filterMap_pattern? {entries : List String}
    (h : ∀ entry ∈ entries, Compiles entry) :
    (entries.filterMap pattern?).map Glob.Pattern.source = entries := by
  induction entries with
  | nil => rfl
  | cons entry entries ih =>
    obtain ⟨⟨pattern, hpattern⟩, hentries⟩ := List.forall_mem_cons.1 h
    have hfound : pattern? entry = some pattern := by rw [pattern?, hpattern]; rfl
    rw [List.filterMap_cons_some hfound, List.map_cons, ih hentries,
      Glob.source_of_compile hpattern]

theorem compile_of_pattern? {entry : String} {pattern : Glob.Pattern}
    (h : pattern? entry = some pattern) : Glob.compile pattern.source = .ok pattern := by
  rw [pattern?] at h
  cases hcompile : Glob.compile entry with
  | error fault =>
    rw [hcompile] at h
    cases h
  | ok found =>
    rw [hcompile] at h
    cases h
    rw [Glob.source_of_compile hcompile, hcompile]

theorem parted_of_compiles {config : Config} (h : ∀ entry ∈ config.ignores, Compiles entry) :
    Parted config.ignores config.ignorePatterns config.ignorePaths := by
  have hsources : config.ignorePatterns.map Glob.Pattern.source
      = config.ignores.filter fun entry => Wild entry := by
    rw [ignorePatterns, map_source_filterMap_pattern? fun entry hentry =>
      h entry (List.mem_filter.1 hentry).1]
    exact List.filter_congr fun entry _ => isGlob_eq_decide entry
  have htexts : config.ignorePaths.map Path.text
      = config.ignores.filter fun entry => ¬ Wild entry := by
    rw [ignorePaths, List.map_map]
    simp [isGlob_eq_decide, Function.comp_def]
  refine ⟨hsources, ?_, htexts, ?_⟩
  · intro pattern hpattern
    obtain ⟨entry, _, hentry⟩ := List.mem_filterMap.1 hpattern
    exact compile_of_pattern? hentry
  · have hpatterns := congrArg List.length hsources
    have hpaths := congrArg List.length htexts
    rw [List.length_map] at hpatterns hpaths
    rw [hpatterns, hpaths, ← List.countP_eq_length_filter, ← List.countP_eq_length_filter]
    simp [List.length_eq_countP_add_countP fun entry => decide (Wild entry)]

theorem parted_of_validate {config : Config} (h : config.validate = .ok ()) :
    Parted config.ignores config.ignorePatterns config.ignorePaths :=
  parted_of_compiles (validate_eq_ok_iff.1 h).1

end Config

end FeatureDigest
