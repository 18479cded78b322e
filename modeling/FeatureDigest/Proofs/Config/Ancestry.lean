import Mathlib.Data.List.Chain
import FeatureDigest.Proofs.Config.Discovery

/-!
# The folders that a search visits

From a path, a search visits the ancestors of the path: the path itself, and then each time the
path before without its last component, up to the top or to the empty path
(`Path.isChain_ancestors`, `Path.exists_last_ancestor`).  It ends at the first of them that holds
a configuration file or is the top of a repository, and finds the file if there is one
(`Config.findFile?_eq_some_iff_first`).
-/

set_option autoImplicit false

namespace FeatureDigest

namespace Path

/-! ## The ancestors of a path -/

/-- A path is another one without its last component. -/
structure IsParent (parent path : Path) : Prop where
  parent? : path.parent? = some parent
  sameStart : parent.isAbsolute = path.isAbsolute
  components : path.components ≠ [] ∧ parent.components = path.components.dropLast

theorem isParent_of_parent? {path parent : Path} (h : path.parent? = some parent) :
    parent.IsParent path := by
  obtain ⟨hstart, hcomponents, hne⟩ := components_of_parent? h
  exact ⟨h, hstart, hne, hcomponents⟩

theorem head?_ancestors (path : Path) : path.ancestors.head? = some path := by
  rw [ancestors_eq, List.head?_cons]

theorem ancestors_of_parent? {path parent : Path} (h : path.parent? = some parent) :
    path.ancestors = path :: parent.ancestors := by
  rw [ancestors_eq, h, Option.map_some, Option.getD_some]

theorem ancestors_of_parent?_eq_none {path : Path} (h : path.parent? = none) :
    path.ancestors = [path] := by
  rw [ancestors_eq, h, Option.map_none, Option.getD_none]

/-- Each ancestor is the one before it without its last component. -/
theorem isChain_ancestors (path : Path) :
    path.ancestors.IsChain fun child parent => parent.IsParent child := by
  induction path using parent_induction with
  | last path hnone =>
    rw [ancestors_of_parent?_eq_none hnone]
    exact List.isChain_singleton path
  | up path parent hparent ih =>
    rw [ancestors_of_parent? hparent]
    refine List.isChain_cons.2 ⟨fun next hnext => ?_, ih⟩
    rw [head?_ancestors] at hnext
    cases hnext
    exact isParent_of_parent? hparent

/-- The only relative path without a parent is the empty one. -/
theorem text_of_parent?_eq_none {path : Path} (h : path.parent? = none)
    (hrelative : path.isAbsolute = false) : path.text = "" := by
  have hproper := path.proper_spelling
  have htext := path.ofSpelling_spelling
  have hnone : path.spelling.parent? = none := Option.map_eq_none_iff.1 h
  unfold isAbsolute at hrelative
  generalize path.spelling = spelling at hproper htext hnone hrelative
  obtain ⟨rooted, pieces⟩ := spelling
  cases hrelative
  rw [← htext]
  cases pieces with
  | nil => rfl
  | cons first pieces =>
    simp only [Spelling.parent?, Bool.false_eq_true, if_false] at hnone
    split at hnone
    · split at hnone
      · rename_i hfirst
        rw [hproper.first_ne_nil rfl pieces (by rw [hfirst]), hfirst]
        rfl
      · cases hnone
    · cases hnone

/-- The last ancestor has no parent: it is the top, or the empty path where the path is
relative. -/
theorem exists_last_ancestor (path : Path) :
    ∃ last, path.ancestors.getLast? = some last ∧ last.parent? = none ∧
      if path.isAbsolute then last.components = [.top] else last.text = "" := by
  induction path using parent_induction with
  | last path hnone =>
    refine ⟨path, by rw [ancestors_of_parent?_eq_none hnone]; rfl, hnone, ?_⟩
    cases habsolute : path.isAbsolute with
    | true =>
      rw [if_pos rfl]
      refine (components_of_parent?_eq_none hnone).resolve_left fun hnil => ?_
      cases hnil.symm.trans (components_of_isAbsolute habsolute)
    | false =>
      rw [if_neg Bool.false_ne_true]
      exact text_of_parent?_eq_none hnone habsolute
  | up path parent hparent ih =>
    obtain ⟨last, hlast, hnone, hstart⟩ := ih
    refine ⟨last, ?_, hnone, ?_⟩
    · rw [ancestors_of_parent? hparent, List.getLast?_cons, hlast, Option.getD_some]
    · rwa [← (isParent_of_parent? hparent).sameStart]

end Path

namespace Config

/-! ## The search -/

variable {tree : FileTree}

theorem endsAt_eq_false_iff {folder : Path} :
    endsAt tree folder = false
      ↔ tree.reaches (fileIn folder) = false ∧ tree.reaches (repositoryIn folder) = false := by
  rw [endsAt, Bool.or_eq_false_iff]

/-- A search finds the configuration file of the first ancestor where it ends. -/
theorem findFile?_eq_some_iff {start file : Path} :
    findFile? tree start = some file
      ↔ ∃ nearer folder further, start.ancestors = nearer ++ folder :: further ∧
          (∀ other ∈ nearer, endsAt tree other = false) ∧
          tree.reaches (fileIn folder) = true ∧ file = fileIn folder := by
  rw [findFile?]
  constructor
  · intro h
    cases hfind : start.ancestors.find? (endsAt tree) with
    | none =>
      rw [hfind] at h
      cases h
    | some folder =>
      obtain ⟨_, nearer, further, hancestors, hnearer⟩ := List.find?_eq_some_iff_append.1 hfind
      simp only [hfind, Option.ite_none_right_eq_some, Option.some.injEq] at h
      obtain ⟨hfile, rfl⟩ := h
      exact ⟨nearer, folder, further, hancestors, by simpa using hnearer, hfile, rfl⟩
  · rintro ⟨nearer, folder, further, hancestors, hnearer, hfile, rfl⟩
    have hends : endsAt tree folder = true := by rw [endsAt, hfile, Bool.true_or]
    have hfind : start.ancestors.find? (endsAt tree) = some folder :=
      List.find?_eq_some_iff_append.2
        ⟨hends, nearer, further, hancestors, by simpa using hnearer⟩
    simp only [hfind, hfile, if_true]

/-- Nothing above the top of a repository is found. -/
theorem mem_of_findFile?_of_repository {start folder file : Path} {nearer further : List Path}
    (hancestors : start.ancestors = nearer ++ folder :: further)
    (hrepository : tree.reaches (repositoryIn folder) = true)
    (h : findFile? tree start = some file) :
    ∃ other ∈ nearer ++ [folder], file = fileIn other := by
  obtain ⟨passed, found, rest, hsplit, hpassed, -, rfl⟩ := findFile?_eq_some_iff.1 h
  refine ⟨found, ?_, rfl⟩
  rw [hancestors] at hsplit
  rcases List.append_eq_append_iff.1 hsplit with ⟨more, hmore, htail⟩ | ⟨more, hmore, htail⟩
  · cases more with
    | nil =>
      cases htail
      exact List.mem_append_right _ List.mem_cons_self
    | cons first more =>
      -- The search would have passed the top of the repository.
      cases htail
      have hends := hpassed folder (by simp [hmore])
      rw [endsAt_eq_false_iff, hrepository] at hends
      cases hends.2
  · cases more with
    | nil =>
      cases htail
      exact List.mem_append_right _ List.mem_cons_self
    | cons first more =>
      cases htail
      rw [hmore]
      simp

/-- A search visits a path and its ancestors, each without the last component of the one before,
up to the top or to the empty path.  It finds the configuration file of the first of them that
holds one or is the top of a repository, if this holds one, and nothing otherwise; so it finds a
file beside the top of a repository, and nothing above it. -/
theorem findFile?_eq_some_iff_first (tree : FileTree) (start : Path) :
    (start.ancestors.head? = some start ∧
      (start.ancestors.IsChain fun child parent => parent.IsParent child) ∧
      ∃ last, start.ancestors.getLast? = some last ∧ last.parent? = none ∧
        if start.isAbsolute then last.components = [.top] else last.text = "") ∧
    (∀ file, findFile? tree start = some file
      ↔ ∃ nearer folder further, start.ancestors = nearer ++ folder :: further ∧
          (∀ other ∈ nearer, tree.reaches (other.join ⟨".gherkinrc.json"⟩) = false ∧
            tree.reaches (other.join ⟨".git"⟩) = false) ∧
          tree.reaches (folder.join ⟨".gherkinrc.json"⟩) = true ∧
          file = folder.join ⟨".gherkinrc.json"⟩) ∧
    ∀ nearer folder further, start.ancestors = nearer ++ folder :: further →
      tree.reaches (folder.join ⟨".git"⟩) = true →
      ((∀ other ∈ nearer, tree.reaches (other.join ⟨".gherkinrc.json"⟩) = false ∧
          tree.reaches (other.join ⟨".git"⟩) = false) →
        tree.reaches (folder.join ⟨".gherkinrc.json"⟩) = true →
        findFile? tree start = some (folder.join ⟨".gherkinrc.json"⟩)) ∧
      ∀ file, findFile? tree start = some file →
        ∃ other ∈ nearer ++ [folder], file = other.join ⟨".gherkinrc.json"⟩ := by
  have hfound (file : Path) : findFile? tree start = some file
      ↔ ∃ nearer folder further, start.ancestors = nearer ++ folder :: further ∧
          (∀ other ∈ nearer, tree.reaches (fileIn other) = false ∧
            tree.reaches (repositoryIn other) = false) ∧
          tree.reaches (fileIn folder) = true ∧ file = fileIn folder := by
    simp only [findFile?_eq_some_iff, endsAt_eq_false_iff]
  refine ⟨⟨start.head?_ancestors, start.isChain_ancestors, start.exists_last_ancestor⟩,
    hfound, ?_⟩
  intro nearer folder further hancestors hrepository
  refine ⟨fun hnearer hfile => ?_, fun file => ?_⟩
  · exact (hfound _).2 ⟨nearer, folder, further, hancestors, hnearer, hfile, rfl⟩
  · exact mem_of_findFile?_of_repository hancestors hrepository

/-- A configuration file beside the top of a repository, another one above it, and a folder below
it. -/
def repositoryTree : FileTree :=
  ⟨[(configName, .file "x".toUTF8),
    (workName, .folder [(configName, .file "y".toUTF8), (partName, .folder []),
      (repositoryName, .folder [])])], [workName]⟩

/-- The search comes to the top of the repository, whatever the path is spelled like. -/
theorem findFile?_first_repository :
    ((⟨"/s/b//"⟩ : Path).ancestors = [⟨"/s/b//"⟩, ⟨"/s"⟩, ⟨"/"⟩] ∧
      (repositoryTree.reaches ⟨"/s/b//.gherkinrc.json"⟩ = false ∧
        repositoryTree.reaches ⟨"/s/b//.git"⟩ = false) ∧
      repositoryTree.reaches ⟨"/s/.git"⟩ = true ∧
      repositoryTree.reaches ⟨"/s/.gherkinrc.json"⟩ = true ∧
      repositoryTree.reaches ⟨"/.gherkinrc.json"⟩ = true) ∧
    findFile? repositoryTree ⟨"/s/b//"⟩ = some ⟨"/s/.gherkinrc.json"⟩ := by
  have hancestors : (⟨"/s/b//"⟩ : Path).ancestors = [⟨"/s/b//"⟩] ++ ⟨"/s"⟩ :: [⟨"/"⟩] := by
    decide +kernel
  have hnearer : repositoryTree.reaches ⟨"/s/b//.gherkinrc.json"⟩ = false ∧
      repositoryTree.reaches ⟨"/s/b//.git"⟩ = false := by
    decide +kernel
  have hrepository : repositoryTree.reaches ⟨"/s/.git"⟩ = true := by decide +kernel
  have hfile : repositoryTree.reaches ⟨"/s/.gherkinrc.json"⟩ = true := by decide +kernel
  refine ⟨⟨hancestors, hnearer, hrepository, hfile, by decide +kernel⟩, ?_⟩
  have hfound := (findFile?_eq_some_iff_first repositoryTree ⟨"/s/b//"⟩).2.2
    [⟨"/s/b//"⟩] ⟨"/s"⟩ [⟨"/"⟩] hancestors hrepository
  refine hfound.1 (fun other hother => ?_) hfile
  rw [List.mem_singleton.1 hother]
  exact hnearer

end Config

end FeatureDigest
