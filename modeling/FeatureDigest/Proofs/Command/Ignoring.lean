import FeatureDigest.Proofs.Command.Flags
import FeatureDigest.Proofs.Command.Override
import FeatureDigest.Proofs.Config.Validity
import FeatureDigest.Proofs.Scan.Narrowing

/-!
# The ignores of a scan

A scan goes by the ignores of its configuration and those of its arguments, and each of them is a
pattern or a path that the walk is given: none is lost on the way (`ScanArguments.ignores_kept`).
More ignores only remove files from what it finds, and more extensions only add some
(`ScanArguments.ignores_only_remove`).
-/

set_option autoImplicit false

namespace FeatureDigest

open Glob (Compiles)

namespace Config

/-- Fewer ignores do not make a configuration invalid. -/
theorem validate_of_subset {few many : Config} (hextensions : few.extensions = many.extensions)
    (hignores : few.ignores ⊆ many.ignores) (h : many.validate = .ok ()) :
    few.validate = .ok () := by
  obtain ⟨hcompiles, hextension⟩ := validate_eq_ok_iff.1 h
  refine validate_eq_ok_iff.2 ⟨fun entry hentry => hcompiles entry (hignores hentry), ?_⟩
  rwa [Extensionless, hextensions]

end Config

/-- The selection of a configuration with more ignores is narrower. -/
theorem Selection.narrower_ofConfig {narrow wide : Config}
    (hextensions : narrow.extensions ⊆ wide.extensions) (hignores : wide.ignores ⊆ narrow.ignores) :
    (ofConfig narrow).Narrower (ofConfig wide) := by
  refine ⟨hextensions, ?_, ?_⟩
  · intro pattern hpattern
    obtain ⟨entry, hentry, hread⟩ := List.mem_filterMap.1 hpattern
    obtain ⟨hmem, hglob⟩ := List.mem_filter.1 hentry
    exact List.mem_filterMap.2 ⟨entry, List.mem_filter.2 ⟨hignores hmem, hglob⟩, hread⟩
  · intro path hpath
    obtain ⟨entry, hentry, rfl⟩ := List.mem_map.1 hpath
    obtain ⟨hmem, hliteral⟩ := List.mem_filter.1 hentry
    exact List.mem_map.2 ⟨entry, List.mem_filter.2 ⟨hignores hmem, hliteral⟩, rfl⟩

namespace ScanArguments

variable {arguments : ScanArguments} {tree : FileTree} {colour : Bool}

/-- A scan with a valid configuration shows the report on what its walk finds. -/
theorem run_of_validate (arguments : ScanArguments) {loaded : Config.Loaded}
    (hload : Config.load tree arguments.start = .ok loaded)
    (hvalid : (arguments.override loaded.config).validate = .ok ()) (colour : Bool) :
    let config := arguments.override loaded.config
    let (report, faults) := Report.ofWalk tree (arguments.root config) (.ofConfig config)
    arguments.run colour tree
      = .success (report.render config.format colour)
        (arguments.written colour loaded.fromFile faults) := by
  have hgoes : ¬ ∃ notes message, arguments.Stops tree notes message := by
    rintro ⟨_, _, failed | ⟨had, failed⟩⟩
    · cases hload.symm.trans failed
    · cases hload.symm.trans had
      cases hvalid.symm.trans failed
  obtain ⟨found, hfound, hrun⟩ := run_of_not_stops hgoes colour
  cases hload.symm.trans hfound
  exact hrun

/-- A scan that goes well has a valid configuration. -/
theorem validate_of_exit_eq_zero (h : (arguments.run colour tree).exit = 0) :
    ∃ loaded, Config.load tree arguments.start = .ok loaded ∧
      (arguments.override loaded.config).validate = .ok () := by
  have hgoes : ¬ ∃ notes message, arguments.Stops tree notes message := by
    intro hstops
    rw [(arguments.exit_eq_two_iff tree colour).2 hstops] at h
    cases h
  obtain ⟨loaded, hload, -⟩ := run_of_not_stops hgoes colour
  refine ⟨loaded, hload, ?_⟩
  cases hvalid : (arguments.override loaded.config).validate with
  | error invalid => exact absurd ⟨_, _, .override hload hvalid⟩ hgoes
  | ok _ => rfl

/-- A configuration is valid exactly when all ignores compile and some extension is not blank, and
else the first ignore that does not compile is named before the extensions are complained about.
The ignores of a valid configuration are parted into patterns and paths without loss.  What is
loaded is valid; and a scan that goes well walks with all ignores of its configuration and of
its arguments. -/
theorem ignores_kept :
    (∀ config : Config,
      (config.validate = .ok ()
        ↔ (∀ entry ∈ config.ignores, Compiles entry) ∧
          ∃ extension ∈ config.extensions, ∃ c ∈ extension.toList, Text.isBlank c = false) ∧
      (∀ entry fault, config.validate = .error (.ignore entry fault)
        ↔ ∃ before after, config.ignores = before ++ entry :: after ∧
            (∀ other ∈ before, Compiles other) ∧ Glob.compile entry = .error fault) ∧
      (config.validate = .error .noExtension
        ↔ (∀ entry ∈ config.ignores, Compiles entry) ∧
          ∀ extension ∈ config.extensions, ∀ c ∈ extension.toList, Text.isBlank c = true) ∧
      (config.validate = .ok () →
        Config.Parted config.ignores config.ignorePatterns config.ignorePaths)) ∧
    (∀ tree start loaded, Config.load tree start = .ok loaded →
      loaded.config.validate = .ok ()) ∧
    ∀ (arguments : ScanArguments) (tree : FileTree) (colour : Bool),
      (arguments.run colour tree).exit = 0 →
      ∃ loaded, Config.load tree arguments.start = .ok loaded ∧
        let config := arguments.override loaded.config
        let selection := Selection.ofConfig config
        Config.Parted (loaded.config.ignores ++ arguments.ignores) selection.patterns
            selection.paths ∧
          let (report, faults) := Report.ofWalk tree (arguments.root config) selection
          arguments.run colour tree
            = .success (report.render config.format colour)
              (arguments.written colour loaded.fromFile faults) := by
  refine ⟨fun config => ⟨?_, ?_, ?_, Config.parted_of_validate⟩, ?_, ?_⟩
  · rw [Config.validate_eq_ok_iff, Config.Extensionless]
    simp
  · intro entry fault
    exact Config.validate_eq_ignore_iff
  · exact Config.validate_eq_noExtension_iff
  · intro tree start loaded
    exact Config.validate_of_load
  · intro arguments tree colour hexit
    obtain ⟨loaded, hload, hvalid⟩ := validate_of_exit_eq_zero hexit
    exact ⟨loaded, hload, Config.parted_of_validate hvalid, arguments.run_of_validate hload hvalid colour⟩

open Command (openTree)

/-- The configuration says one path and the arguments a pattern and another path: the walk gets
them all. -/
theorem ignores_kept_openTree :
    ((⟨none, none, ["p*", "x/y"], [], false⟩ : ScanArguments).run false openTree).exit = 0 ∧
      ∃ patterns paths, Config.Parted ["h", "p*", "x/y"] patterns paths ∧
        patterns.map Glob.Pattern.source = ["p*"] ∧ paths = [⟨"h"⟩, ⟨"x/y"⟩] := by
  have hexit : ((⟨none, none, ["p*", "x/y"], [], false⟩ : ScanArguments).run false openTree).exit
      = 0 := by
    decide +kernel
  have hrc : Config.load openTree ⟨"."⟩ = .ok ⟨rcConfig, true⟩ := rfl
  obtain ⟨loaded, hload, hparted, -⟩ := ignores_kept.2.2 _ _ _ hexit
  cases hrc.symm.trans hload
  exact ⟨hexit, _, _, hparted, rfl, rfl⟩

/-- A walk with a narrower selection finds no more, and in the same order; so the order of what a
selection lists and what it lists twice do not matter.  A scan that goes well with more ignores
goes well with fewer, and lists all files then that it lists with more. -/
theorem ignores_only_remove (tree : FileTree) (root : Path) (arguments : ScanArguments) :
    (∀ narrow wide : Selection, narrow.Narrower wide →
      ((Walk.start root narrow).trace tree).Sublist ((Walk.start root wide).trace tree) ∧
      ((Walk.start root narrow).drain tree).1.Sublist ((Walk.start root wide).drain tree).1) ∧
    (∀ first second : Selection,
      (∀ extension, extension ∈ first.extensions ↔ extension ∈ second.extensions) →
      (∀ pattern, pattern ∈ first.patterns ↔ pattern ∈ second.patterns) →
      (∀ path, path ∈ first.paths ↔ path ∈ second.paths) →
      ((Walk.start root first).drain tree).1 = ((Walk.start root second).drain tree).1) ∧
    ∀ (ignores : List String) (colour : Bool), arguments.ignores ⊆ ignores →
      (({ arguments with ignores } : ScanArguments).run colour tree).exit = 0 →
      ∃ (less all : Report) (format : Format),
        (({ arguments with ignores } : ScanArguments).run colour tree).stdout
            = less.render format colour ∧
          (arguments.run colour tree).exit = 0 ∧
          (arguments.run colour tree).stdout = all.render format colour ∧
          less.root = all.root ∧ less.files.Sublist all.files := by
  refine ⟨?_, ?_, ?_⟩
  · intro narrow wide h
    exact ⟨Walk.trace_sublist h tree root, Walk.drain_sublist h tree root⟩
  · intro first second hextensions hpatterns hpaths
    have hfirst : first.Narrower second :=
      ⟨fun _ => (hextensions _).1, fun _ => (hpatterns _).2, fun _ => (hpaths _).2⟩
    have hsecond : second.Narrower first :=
      ⟨fun _ => (hextensions _).2, fun _ => (hpatterns _).1, fun _ => (hpaths _).1⟩
    exact (Walk.drain_sublist hfirst tree root).antisymm (Walk.drain_sublist hsecond tree root)
  · intro ignores colour hignores hexit
    obtain ⟨loaded, hload, hvalid⟩ := validate_of_exit_eq_zero hexit
    let more : ScanArguments := { arguments with ignores }
    have hsubset : (arguments.override loaded.config).ignores
        ⊆ (more.override loaded.config).ignores := by
      intro entry hentry
      rcases List.mem_append.1 hentry with hconfig | harguments
      · exact List.mem_append_left _ hconfig
      · exact List.mem_append_right _ (hignores harguments)
    have hextensions : (arguments.override loaded.config).extensions
        = (more.override loaded.config).extensions := rfl
    have hfewer := Config.validate_of_subset hextensions hsubset hvalid
    have hless := more.run_of_validate hload hvalid colour
    have hall := arguments.run_of_validate hload hfewer colour
    refine ⟨_, _, (arguments.override loaded.config).format, congrArg Outcome.stdout hless,
      congrArg Outcome.exit hall, congrArg Outcome.stdout hall, rfl, ?_⟩
    have hnarrower : (Selection.ofConfig (more.override loaded.config)).Narrower
        (Selection.ofConfig (arguments.override loaded.config)) :=
      Selection.narrower_ofConfig (List.Subset.refl _) hsubset
    exact (Walk.drain_sublist hnarrower tree _).map FileReport.ofFile

/-- With one ignore more, one file less is listed. -/
theorem ignores_only_remove_openTree :
    ((⟨none, none, ["p*"], [], false⟩ : ScanArguments).run false openTree).exit = 0 ∧
      ∃ (less all : Report) (format : Format),
        ((⟨none, none, ["p*"], [], false⟩ : ScanArguments).run false openTree).stdout
            = less.render format false ∧
          (ScanArguments.bare.run false openTree).exit = 0 ∧
          (ScanArguments.bare.run false openTree).stdout = all.render format false ∧
          less.root = all.root ∧ less.files.Sublist all.files := by
  have hexit : ((⟨none, none, ["p*"], [], false⟩ : ScanArguments).run false openTree).exit = 0 := by
    decide +kernel
  exact ⟨hexit, (ignores_only_remove openTree ⟨"./"⟩ .bare).2.2 ["p*"] false
    (List.nil_subset _) hexit⟩

end ScanArguments

end FeatureDigest
