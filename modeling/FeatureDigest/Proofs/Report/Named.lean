import FeatureDigest.Command.Run
import FeatureDigest.Proofs.FileTree.Seen
import FeatureDigest.Proofs.Scan.Skipped
import FeatureDigest.Proofs.Scan.Yield

/-!
# Names of listed files

A report lists a file under a path that ends with the name of the file.  The path is empty, and
names nothing, when the root of the report and the file have the same path, which is so when the
root of the walk is a file (`Report.displayPath_named`), but for a root that is relative and has no
canonical path: the file is listed under its whole path then.
-/

set_option autoImplicit false

namespace FeatureDigest

namespace Walk

variable {tree : FileTree} {path : Path} {target : Place} {content : ByteArray}
  {file : FeatureFile}

/-- The path of a feature file is canonical, or absolute when there is no canonical one. -/
theorem Presents.path_cases (h : Presents tree path target content file) :
    (tree.canonical path = .ok file.path ∧ file.path = Path.ofPlace target) ∨
      (tree.canonical path = .error .nameTooLong ∧ file.path = tree.absolute path) := by
  cases h with
  | canonical found => exact Or.inl ⟨found, rfl⟩
  | absolute missed _ _ => exact Or.inr ⟨missed, rfl⟩
  | unread missed _ _ => exact Or.inr ⟨missed, rfl⟩

theorem Presents.seen (h : Presents tree path target content file)
    (hfind : tree.find .target path = .ok (target, .file content)) :
    tree.Seen file.path target := by
  rcases h.path_cases with ⟨_, hpath⟩ | ⟨_, hpath⟩
  · rw [hpath]
    exact FileTree.seen_ofPlace (FileTree.find_eq_ok_iff.1 hfind).2.2 (by exact nofun)
  · rw [hpath]
    exact FileTree.seen_absolute hfind

theorem Presents.exists_ends (h : Presents tree path target content file)
    (hfind : tree.find .target path = .ok (target, .file content)) :
    ∃ name : FileName, file.path.Ends name.piece := by
  rcases h.path_cases with ⟨_, hpath⟩ | ⟨_, hpath⟩
  · have hat := (FileTree.find_eq_ok_iff.1 hfind).2.2
    have hne : target ≠ [] := by
      rintro rfl
      cases hat
    refine ⟨target.getLast hne, ?_⟩
    rw [hpath]
    exact FileTree.ends_ofPlace (List.getLast?_eq_some_getLast hne)
  · obtain ⟨name, hends⟩ := FileTree.exists_ends hfind
    refine ⟨name, ?_⟩
    rw [hpath]
    exact FileTree.ends_absolute hends

end Walk

namespace Report

variable {tree : FileTree} {root : Path}

/-- The root of a report is seen from the top, unless it is relative and has no canonical path. -/
theorem seen_root {place : Place} {node : Node}
    (hfind : tree.find .target root = .ok (place, node))
    (habsolute : (tree.canonicalOrSelf root).isAbsolute = true) :
    tree.Seen (tree.canonicalOrSelf root) place ∧
      (root.isAbsolute = true ∨ (tree.canonical root).isOk = true) := by
  rcases FileTree.canonical_cases hfind with hfound | ⟨hmissed, _⟩
  · rw [FileTree.canonicalOrSelf, FileTree.canonical_of_find hfound]
    have hat := (FileTree.find_eq_ok_iff.1 hfind).2.2
    exact ⟨FileTree.seen_ofPlace hat (FileTree.kind_ne_link hfind), Or.inr rfl⟩
  · rw [FileTree.canonicalOrSelf, FileTree.canonical_of_find_eq_error hmissed] at habsolute ⊢
    exact ⟨FileTree.seen_of_find hfind habsolute, Or.inl habsolute⟩

/-- The path of a file names what the root of the report names when the root of the walk is the
file, and is absolute or has a canonical path. -/
theorem components_eq_root_iff {selection : Selection} {file : FeatureFile}
    (hfile : file ∈ ((Walk.start root selection).drain tree).1) :
    file.path.components = (tree.canonicalOrSelf root).components
      ↔ tree.isFile root = true ∧
        (root.isAbsolute = true ∨ (tree.canonical root).isOk = true) := by
  obtain ⟨names, hvisited, hyields⟩ := Walk.exists_visited hfile
  obtain ⟨target, content, hfind, hpresents⟩ := Walk.presents_of_featureFile? hyields
  obtain ⟨place, node, hroot, hthere⟩ := hvisited.there
  have hseen := hpresents.seen hfind
  constructor
  · intro hsame
    have habsolute : (tree.canonicalOrSelf root).isAbsolute = true := by
      rw [Path.isAbsolute_iff, ← hsame, ← Path.isAbsolute_iff]
      exact hseen.isAbsolute
    obtain ⟨hrootSeen, hspelled⟩ := seen_root hroot habsolute
    refine ⟨?_, hspelled⟩
    cases hseen.unique hrootSeen hsame
    have hat := (FileTree.find_eq_ok_iff.1 hroot).2.2
    rw [(FileTree.find_eq_ok_iff.1 hfind).2.2] at hat
    cases hat
    exact FileTree.isFile_eq_true_iff.2 ⟨_, _, hroot⟩
  · rintro ⟨hisFile, hspelled⟩
    -- Nothing but the root itself is visited when the root is a file.
    obtain ⟨_, _, hsame⟩ := FileTree.isFile_eq_true_iff.1 hisFile
    cases hroot.symm.trans hsame
    have hnames : names = [] := by
      cases names with
      | nil => rfl
      | cons name names => cases hthere
    rw [hnames, Path.under_nil] at hpresents
    rcases hpresents.path_cases with ⟨hcanonical, _⟩ | ⟨hcanonical, hpath⟩
    · rw [FileTree.canonicalOrSelf, hcanonical]
      rfl
    · rw [hcanonical] at hspelled
      have habsolute := hspelled.resolve_right nofun
      rw [FileTree.canonicalOrSelf, hcanonical, hpath]
      exact FileTree.components_absolute habsolute

/-- Each file of a report has a file name, and is listed under a path that ends with it, unless
the path is empty: this is so if and only if the root of the walk is a file, and is absolute or
has a canonical path. -/
theorem displayPath_named {selection : Selection} {file : FileReport}
    (hfile : file ∈ (ofWalk tree root selection).1.files) :
    ∃ name, file.path.fileName? = some name ∧
      (((ofWalk tree root selection).1.displayPath file).text = "" ↔
        tree.isFile root = true ∧
          (root.isAbsolute = true ∨ (tree.canonical root).isOk = true)) ∧
      (((ofWalk tree root selection).1.displayPath file).text ≠ "" →
        ((ofWalk tree root selection).1.displayPath file).fileName? = some name ∧
          name <:+ ((ofWalk tree root selection).1.displayPath file).text.toList) := by
  obtain ⟨found, hfound, rfl⟩ := List.mem_map.1 hfile
  obtain ⟨names, hvisited, hyields⟩ := Walk.exists_visited hfound
  obtain ⟨target, content, hfind, hpresents⟩ := Walk.presents_of_featureFile? hyields
  obtain ⟨name, hends⟩ := hpresents.exists_ends hfind
  have hshown : (ofWalk tree root selection).1.displayPath (FileReport.ofFile found)
      = found.path.relativeTo (tree.canonicalOrSelf root) := rfl
  rw [hshown]
  refine ⟨name.piece, hends.fileName?, ?_⟩
  rw [← components_eq_root_iff hfound]
  rcases hends.relativeTo (tree.canonicalOrSelf root) with ⟨hsame, hempty⟩ | ⟨hother, hnamed⟩
  · exact ⟨iff_of_true hempty hsame, fun hne => absurd hempty hne⟩
  · refine ⟨iff_of_false ?_ hother, fun _ => ⟨hnamed.fileName?, hnamed.suffix⟩⟩
    intro hempty
    have hsuffix := hnamed.suffix
    rw [hempty] at hsuffix
    exact name.piece_ne_nil (List.suffix_nil.1 hsuffix)

/-- A file in a folder, with a link to the file beside the folder. -/
def linkedFileTree : FileTree :=
  ⟨[(⟨['w'], rfl⟩, .folder [(⟨['i', '.', 'f'], rfl⟩, .file "Feature: A".toUTF8)]),
    (⟨['h', '.', 'f'], rfl⟩, .link ⟨"w/i.f"⟩)], []⟩

/-- The file is listed under its name when the root is the folder. -/
theorem displayPath_named_folder :
    ∃ file ∈ (ofWalk linkedFileTree ⟨"w"⟩ ⟨["f"], [], []⟩).1.files, ∃ name,
      file.path.fileName? = some name ∧
        name <:+ ((ofWalk linkedFileTree ⟨"w"⟩ ⟨["f"], [], []⟩).1.displayPath file).text.toList := by
  have hfiles : (ofWalk linkedFileTree ⟨"w"⟩ ⟨["f"], [], []⟩).1.files
      = [.ofFile ⟨⟨"/w/i.f"⟩, ["Feature: A"]⟩] := by
    decide +kernel
  have hmem : FileReport.ofFile ⟨⟨"/w/i.f"⟩, ["Feature: A"]⟩
      ∈ (ofWalk linkedFileTree ⟨"w"⟩ ⟨["f"], [], []⟩).1.files := by
    rw [hfiles]
    exact List.mem_cons_self
  obtain ⟨name, hname, _, hnamed⟩ := displayPath_named hmem
  have hshown : ((ofWalk linkedFileTree ⟨"w"⟩ ⟨["f"], [], []⟩).1.displayPath
      (.ofFile ⟨⟨"/w/i.f"⟩, ["Feature: A"]⟩)).text ≠ "" := by
    decide +kernel
  exact ⟨_, hmem, name, hname, (hnamed hshown).2⟩

/-- A file that is the root itself, or that the root is a link to, is listed under no name. -/
theorem displayPath_unnamed :
    (∃ file ∈ (ofWalk linkedFileTree ⟨"w/i.f"⟩ ⟨["f"], [], []⟩).1.files,
      ((ofWalk linkedFileTree ⟨"w/i.f"⟩ ⟨["f"], [], []⟩).1.displayPath file).text = "") ∧
    ∃ file ∈ (ofWalk linkedFileTree ⟨"h.f"⟩ ⟨["f"], [], []⟩).1.files,
      ((ofWalk linkedFileTree ⟨"h.f"⟩ ⟨["f"], [], []⟩).1.displayPath file).text = "" := by
  decide +kernel

end Report

end FeatureDigest
