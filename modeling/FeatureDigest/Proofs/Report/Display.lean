import FeatureDigest.Proofs.Path.Relative
import FeatureDigest.Report.Basic

/-!
# Paths that are listed

A report lists its files under paths relative to its root.  Where the root and the files have
canonical paths, a listed path tells its file: it is relative when the components of the root
come first in the path of the file, and names this path after the root then, and it is the whole
path otherwise.  No two files are listed under one path (`Report.displayPath_identifies`).
-/

set_option autoImplicit false

namespace FeatureDigest.Report

variable {report : Report} {file : FileReport}

/-- A listed path is relative when the file is below the root, component by component. -/
theorem isAbsolute_displayPath_iff (hroot : report.root.isAbsolute = true)
    (hfile : file.path.isAbsolute = true) :
    (report.displayPath file).isAbsolute = false
      ↔ report.root.components <+: file.path.components := by
  constructor
  · intro hrelative
    refine Decidable.not_not.1 fun hprefix => ?_
    rw [displayPath, Path.relativeTo_of_not_prefix hprefix, hfile] at hrelative
    cases hrelative
  · exact Path.isAbsolute_relativeTo hroot

/-- The components that a listed path names tell the components of the path of the file. -/
theorem components_of_displayPath (hroot : report.root.isAbsolute = true)
    (hfile : file.path.isAbsolute = true) :
    file.path.components =
      if (report.displayPath file).isAbsolute then (report.displayPath file).components
      else report.root.components ++ (report.displayPath file).components := by
  by_cases hprefix : report.root.components <+: file.path.components
  · rw [(isAbsolute_displayPath_iff hroot hfile).2 hprefix, if_neg Bool.false_ne_true, displayPath,
      Path.components_relativeTo hprefix, List.prefix_iff_eq_append.1 hprefix]
  · rw [displayPath, Path.relativeTo_of_not_prefix hprefix, hfile, if_pos rfl]

/-- Listed paths identify files.  The second part asks for no more than that two listed paths
name the same components, which holds of any two that are spelled the same. -/
theorem displayPath_identifies (hroot : report.root.IsCanonical)
    (hfiles : ∀ file ∈ report.files, file.path.IsCanonical) :
    (∀ file ∈ report.files,
      ((report.displayPath file).isAbsolute = false
        ↔ report.root.components <+: file.path.components) ∧
      (report.root.components <+: file.path.components →
        (report.root.join (report.displayPath file)).components = file.path.components) ∧
      (¬ report.root.components <+: file.path.components →
        report.displayPath file = file.path)) ∧
    ∀ first ∈ report.files, ∀ second ∈ report.files,
      (report.displayPath first).components = (report.displayPath second).components →
        first.path = second.path := by
  constructor
  · intro file hfile
    exact ⟨isAbsolute_displayPath_iff hroot.isAbsolute (hfiles file hfile).isAbsolute,
      Path.components_join_relativeTo hroot.isAbsolute, Path.relativeTo_of_not_prefix⟩
  · intro first hfirst second hsecond hsame
    have habsolute : (report.displayPath first).isAbsolute
        = (report.displayPath second).isAbsolute := by
      rw [Bool.eq_iff_iff, Path.isAbsolute_iff, Path.isAbsolute_iff, hsame]
    apply (hfiles first hfirst).eq_of_components (hfiles second hsecond)
    rw [components_of_displayPath hroot.isAbsolute (hfiles first hfirst).isAbsolute, habsolute,
      hsame, ← components_of_displayPath hroot.isAbsolute (hfiles second hsecond).isAbsolute]

/-- A report on a folder and on a file beside it. -/
def specsReport : Report :=
  .ofFiles ⟨"/specs"⟩ [⟨⟨"/specs/sub/a.feature"⟩, []⟩, ⟨⟨"/specs-old/a.feature"⟩, []⟩] 0

theorem displayPath_identifies_specs :
    (specsReport.files.map fun file => (specsReport.displayPath file).text)
        = ["sub/a.feature", "/specs-old/a.feature"] ∧
      ∀ first ∈ specsReport.files, ∀ second ∈ specsReport.files,
        (specsReport.displayPath first).components = (specsReport.displayPath second).components →
          first.path = second.path := by
  have hroot : specsReport.root.IsCanonical := ⟨["specs".toList], by decide, by decide⟩
  have hfiles : ∀ file ∈ specsReport.files, file.path.IsCanonical := by
    refine List.forall_mem_cons.2 ⟨?_, List.forall_mem_cons.2 ⟨?_, nofun⟩⟩
    · exact ⟨["specs".toList, "sub".toList, "a.feature".toList], by decide, by decide⟩
    · exact ⟨["specs-old".toList, "a.feature".toList], by decide, by decide⟩
  exact ⟨by decide, (displayPath_identifies hroot hfiles).2⟩

end FeatureDigest.Report
