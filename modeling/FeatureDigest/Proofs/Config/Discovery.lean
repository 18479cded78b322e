import Mathlib.Data.List.Induction
import FeatureDigest.Config.Discovery
import FeatureDigest.Proofs.FileTree.Spelled

/-!
# Finding the configuration from differently spelled folders

From a canonical path, the search comes to the nearest folder, at or above the place of the path,
that holds a configuration file or is the top of a repository (`Config.findFile?_ofPlace`).  From
a relative path it comes to the same folder only as long as this is not above the current folder,
where the ancestors of the path end (`Config.findFile?_respelled`).
-/

set_option autoImplicit false

namespace FeatureDigest

/-! ## Parents of canonical paths -/

namespace Path

theorem parent?_ofPlace_nil : (ofPlace []).parent? = none := by
  decide

theorem parent?_ofPlace_concat (place : Place) (name : FileName) :
    (ofPlace (place ++ [name])).parent? = some (ofPlace place) := by
  have hne : (place ++ [name]).pieces ≠ [] := by simp
  have hdrop : dropTrailingFillers (place ++ [name]).pieces = place.pieces ++ [name.piece] := by
    rw [dropTrailingFillers_pieces, Place.pieces, List.map_append]
    rfl
  have hparent : (⟨true, (place ++ [name]).pieces⟩ : Spelling).parent?
      = some ⟨true, place.pieces⟩ := by
    rw [Spelling.parent?, if_pos rfl]
    dsimp only
    rw [hdrop]
    split
    · rename_i hnone
      cases List.append_ne_nil_of_right_ne_nil _ (List.cons_ne_nil _ _) hnone
    · rw [List.dropLast_concat, dropTrailingFillers_pieces]
  rw [parent?, ofPlace, spelling_ofPieces hne (Place.slash_not_mem _), hparent]
  rfl

theorem self_mem_ancestors (path : Path) : path ∈ path.ancestors := by
  rw [ancestors_eq]
  exact List.mem_cons_self

theorem mem_ancestors_of_parent? {path parent folder : Path} (h : path.parent? = some parent)
    (hmem : folder ∈ parent.ancestors) : folder ∈ path.ancestors := by
  rw [ancestors_eq, h]
  exact List.mem_cons_of_mem path hmem

/-- What holds of the paths without a parent, and of a path when it holds of its parent, holds
of all paths. -/
theorem parent_induction {motive : Path → Prop}
    (last : ∀ path : Path, path.parent? = none → motive path)
    (up : ∀ path parent : Path, path.parent? = some parent → motive parent → motive path)
    (path : Path) : motive path := by
  induction hdepth : path.spelling.depth generalizing path with
  | zero =>
    cases hparent : path.parent? with
    | none => exact last path hparent
    | some parent =>
      rw [depth_of_parent? hparent] at hdepth
      cases hdepth
  | succ depth ih =>
    cases hparent : path.parent? with
    | none => exact last path hparent
    | some parent =>
      rw [depth_of_parent? hparent] at hdepth
      exact up path parent hparent (ih parent (Nat.succ.inj hdepth))

/-! ## Relative paths of folders -/

/-- The path names the names one after the other, perhaps after a `.`, and nothing else. -/
def Descends (path : Path) (names : Place) : Prop :=
  path.components = names.components ∨ path.components = .here :: names.components

theorem Descends.not_isAbsolute {path : Path} {names : Place} (h : path.Descends names) :
    path.isAbsolute = false := by
  cases habsolute : path.isAbsolute with
  | false => rfl
  | true =>
    have htop : path.components = .top :: path.spelling.pieces.filterMap Component.ofPiece? := by
      unfold isAbsolute at habsolute
      rw [Path.components, Spelling.components, if_pos habsolute]
    rcases h with h | h
    · cases names with
      | nil => cases htop.symm.trans h
      | cons name names => cases htop.symm.trans h
    · cases htop.symm.trans h

theorem Descends.telling_eq {path : Path} {names : Place} (h : path.Descends names) :
    path.telling = names.pieces := by
  rw [Path.telling_eq]
  rcases h with h | h
  · rw [h, Place.filterMap_piece?]
  · rw [h, List.filterMap_cons_none rfl, Place.filterMap_piece?]

theorem Descends.spells {tree : FileTree} {path : Path} {names : Place} {entries : Entries}
    (h : path.Descends names) (hat : tree.at? (tree.here ++ names) = some (.folder entries)) :
    tree.Spells path (tree.here ++ names) := by
  refine ⟨⟨names, h.telling_eq, ?_⟩, entries, hat⟩
  rw [FileTree.origin, h.not_isAbsolute, if_neg Bool.false_ne_true]

theorem spells_ofPlace {tree : FileTree} {place : Place} {entries : Entries}
    (hat : tree.at? place = some (.folder entries)) : tree.Spells (ofPlace place) place := by
  refine ⟨⟨place, ?_, ?_⟩, entries, hat⟩
  · rw [Path.telling_eq, components_ofPlace, List.filterMap_cons_none rfl,
      Place.filterMap_piece?]
  · rw [FileTree.origin, ofPlace, isAbsolute_ofPieces, if_pos rfl, List.nil_append]

/-- The parent of a path that names the way to a folder leads to the parent of the folder, or to
the same folder if the path is `.`. -/
theorem Descends.parent {path parent : Path} {names : Place} (h : path.Descends names)
    (hparent : path.parent? = some parent) : parent.Descends names.dropLast := by
  obtain ⟨_, hcomponents, hne⟩ := components_of_parent? hparent
  have hdrop : Place.components names.dropLast = names.components.dropLast := List.map_dropLast
  rw [Descends, hcomponents, hdrop]
  rcases h with h | h
  · exact Or.inl (by rw [h])
  · rw [h]
    cases names with
    | nil => exact Or.inl rfl
    | cons name names => exact Or.inr (List.dropLast_cons_of_ne_nil (by exact nofun))

theorem Descends.of_parent?_eq_none {path : Path} {names : Place} (h : path.Descends names)
    (hnone : path.parent? = none) : names = [] := by
  rcases components_of_parent?_eq_none hnone with hcomponents | hcomponents
  · rcases h with h | h
    · exact List.map_eq_nil_iff.1 (h.symm.trans hcomponents)
    · cases h.symm.trans hcomponents
  · rcases h with h | h
    · cases names with
      | nil => cases h.symm.trans hcomponents
      | cons name names => cases h.symm.trans hcomponents
    · cases h.symm.trans hcomponents

end Path

namespace Config

/-! ## The search -/

/-- A search ends in a folder that holds the configuration file, or is the top of a repository. -/
theorem findFile?_of_ends {tree : FileTree} {path : Path} (h : endsAt tree path = true) :
    findFile? tree path
      = if tree.reaches (fileIn path) then some (fileIn path) else none := by
  rw [findFile?, Path.ancestors_eq, List.find?_cons_of_pos h]

/-- A search goes on in the parent of any other folder. -/
theorem findFile?_of_not_ends {tree : FileTree} {path : Path} (h : endsAt tree path = false) :
    findFile? tree path = path.parent?.bind (findFile? tree) := by
  rw [findFile?, Path.ancestors_eq, List.find?_cons_of_neg (by simp [h])]
  cases path.parent? <;> rfl

/-- The folder at or above a place where a search ends that starts there. -/
structure Nearest (tree : FileTree) (place front : Place) : Prop where
  above : front <+: place
  ends : endsAt tree (Path.ofPlace front) = true
  first : ∀ between, front <+: between → between <+: place → between ≠ front →
    endsAt tree (Path.ofPlace between) = false

theorem nearest_of_ends {tree : FileTree} {place front : Place}
    (h : endsAt tree (Path.ofPlace place) = true) : Nearest tree place front ↔ front = place := by
  constructor
  · intro hnearest
    by_cases heq : front = place
    · exact heq
    · have hfirst := hnearest.first place hnearest.above List.prefix_rfl (Ne.symm heq)
      rw [h] at hfirst
      cases hfirst
  · rintro rfl
    exact ⟨List.prefix_rfl, h, fun between hfront hbetween hne =>
      absurd (hbetween.eq_of_length_le hfront.length_le) hne⟩

theorem not_nearest_nil {tree : FileTree} {front : Place}
    (h : endsAt tree (Path.ofPlace []) = false) : ¬ Nearest tree [] front := by
  rintro ⟨habove, hends, _⟩
  rw [List.prefix_nil.1 habove, h] at hends
  cases hends

theorem nearest_concat {tree : FileTree} {place front : Place} {name : FileName}
    (h : endsAt tree (Path.ofPlace (place ++ [name])) = false) :
    Nearest tree (place ++ [name]) front ↔ Nearest tree place front := by
  constructor
  · rintro ⟨habove, hends, hfirst⟩
    have hbelow : front <+: place := by
      refine (List.prefix_concat_iff.1 habove).resolve_left ?_
      rintro rfl
      rw [h] at hends
      cases hends
    refine ⟨hbelow, hends, fun between hfront hbetween hne => ?_⟩
    exact hfirst between hfront (hbetween.trans (List.prefix_append _ _)) hne
  · rintro ⟨habove, hends, hfirst⟩
    refine ⟨habove.trans (List.prefix_append _ _), hends, fun between hfront hbetween hne => ?_⟩
    rcases List.prefix_concat_iff.1 hbetween with rfl | hbetween
    · exact h
    · exact hfirst between hfront hbetween hne

/-- From a canonical path, the search finds the configuration file of the nearest folder where it
ends, if this folder holds one. -/
theorem findFile?_ofPlace (tree : FileTree) (place : Place) (file : Path) :
    findFile? tree (Path.ofPlace place) = some file
      ↔ ∃ front, Nearest tree place front ∧ tree.reaches (fileIn (Path.ofPlace front)) = true ∧
          file = fileIn (Path.ofPlace front) := by
  have hended {place : Place} (h : endsAt tree (Path.ofPlace place) = true) :
      findFile? tree (Path.ofPlace place) = some file
        ↔ ∃ front, Nearest tree place front ∧
            tree.reaches (fileIn (Path.ofPlace front)) = true ∧
            file = fileIn (Path.ofPlace front) := by
    simp only [nearest_of_ends h, exists_eq_left, findFile?_of_ends h]
    split
    · rename_i hfile
      simp [hfile, eq_comm]
    · rename_i hfile
      simp [hfile]
  induction place using List.reverseRecOn with
  | nil =>
    cases hends : endsAt tree (Path.ofPlace []) with
    | true => exact hended hends
    | false =>
      rw [findFile?_of_not_ends hends, Path.parent?_ofPlace_nil, Option.bind_none]
      constructor
      · exact nofun
      · rintro ⟨front, hnearest, _⟩
        exact absurd hnearest (not_nearest_nil hends)
  | append_singleton place name ih =>
    cases hends : endsAt tree (Path.ofPlace (place ++ [name])) with
    | true => exact hended hends
    | false =>
      rw [findFile?_of_not_ends hends, Path.parent?_ofPlace_concat, Option.bind_some]
      simp only [nearest_concat hends]
      exact ih

/-! ## Searches from the same folder -/

/-- The name of the configuration file, as a file name. -/
def configName : FileName := ⟨fileName.toList, rfl⟩

/-- The name of what makes a folder the top of a repository. -/
def repositoryName : FileName := ⟨['.', 'g', 'i', 't'], rfl⟩

theorem fileIn_eq (folder : Path) :
    fileIn folder = folder.join ⟨String.ofList configName.piece⟩ := by
  rw [fileIn, configName, String.ofList_toList]

theorem utf8ByteSize_repositoryIn_le (folder : Path) :
    (repositoryIn folder).text.utf8ByteSize ≤ (fileIn folder).text.utf8ByteSize := by
  have hfile : (⟨fileName⟩ : Path).isAbsolute = false := by decide +kernel
  have hrepository : (⟨".git"⟩ : Path).isAbsolute = false := by decide
  have hsize : ".git".utf8ByteSize ≤ fileName.utf8ByteSize := by decide
  rw [repositoryIn, fileIn, Path.join, Path.join, hfile, hrepository,
    if_neg Bool.false_ne_true, if_neg Bool.false_ne_true]
  split
  · simpa [String.utf8ByteSize_append] using hsize
  · simpa [String.utf8ByteSize_append] using hsize

/-- The paths that a search tries are short enough. -/
def Short (start : Path) : Prop :=
  ∀ folder ∈ start.ancestors, (fileIn folder).text.utf8ByteSize < maxPathBytes

theorem Short.parent {start parent : Path} (h : Short start)
    (hparent : start.parent? = some parent) : Short parent :=
  fun folder hmem => h folder (Path.mem_ancestors_of_parent? hparent hmem)

variable {tree : FileTree}

theorem find_fileIn_congr {first second : Path} {place : Place} (hfirst : tree.Spells first place)
    (hsecond : tree.Spells second place) (hshort : Short first) (hlength : Short second) :
    tree.find .target (fileIn first) = tree.find .target (fileIn second) := by
  have hsize := hshort first first.self_mem_ancestors
  have hother := hlength second second.self_mem_ancestors
  rw [fileIn_eq] at hsize hother ⊢
  rw [fileIn_eq]
  exact FileTree.find_join_congr hfirst hsecond configName hsize hother

theorem endsAt_congr {first second : Path} {place : Place} (hfirst : tree.Spells first place)
    (hsecond : tree.Spells second place) (hshort : Short first) (hlength : Short second) :
    endsAt tree first = endsAt tree second := by
  have hsize := Nat.lt_of_le_of_lt (utf8ByteSize_repositoryIn_le first)
    (hshort first first.self_mem_ancestors)
  have hother := Nat.lt_of_le_of_lt (utf8ByteSize_repositoryIn_le second)
    (hlength second second.self_mem_ancestors)
  have hrepository : tree.find .target (repositoryIn first)
      = tree.find .target (repositoryIn second) :=
    FileTree.find_join_congr hfirst hsecond repositoryName hsize hother
  rw [endsAt, endsAt, FileTree.reaches_congr hrepository,
    FileTree.reaches_congr (find_fileIn_congr hfirst hsecond hshort hlength)]

/-- Two searches find nothing, or paths of the same node. -/
inductive SameFile (tree : FileTree) : Option Path → Option Path → Prop
  | none : SameFile tree none none
  | some {first second : Path} {place : Place} {node : Node}
      (left : tree.find .target first = .ok (place, node))
      (right : tree.find .target second = .ok (place, node)) :
      SameFile tree (some first) (some second)

theorem sameFile_none_iff {found : Option Path} : SameFile tree none found ↔ found = none := by
  constructor
  · rintro ⟨⟩
    rfl
  · rintro rfl
    exact .none

/-- Two searches that end in the same folder find the same. -/
theorem sameFile_of_ends {first second : Path} {place : Place} (hfirst : tree.Spells first place)
    (hsecond : tree.Spells second place) (hshort : Short first) (hlength : Short second)
    (hends : endsAt tree second = true) :
    SameFile tree (findFile? tree first) (findFile? tree second) := by
  have hsame := endsAt_congr hfirst hsecond hshort hlength
  have hfind := find_fileIn_congr hfirst hsecond hshort hlength
  rw [findFile?_of_ends (hsame.trans hends), findFile?_of_ends hends,
    FileTree.reaches_congr hfind]
  split
  · rename_i hreached
    obtain ⟨place, node, hfound⟩ := FileTree.reaches_eq_true_iff.1 hreached
    exact .some (hfind.trans hfound) hfound
  · exact .none

/-- No configuration file above the current folder counts for a place. -/
def Local (tree : FileTree) (place : Place) : Prop :=
  ∀ front, Nearest tree place front → front <+: tree.here → front ≠ tree.here →
    tree.reaches (fileIn (Path.ofPlace front)) = false

theorem local_of_ends {names : Place}
    (h : endsAt tree (Path.ofPlace (tree.here ++ names)) = true) :
    Local tree (tree.here ++ names) := by
  intro front hnearest habove hne
  rw [(nearest_of_ends h).1 hnearest] at habove hne
  exact absurd (habove.eq_of_length_le (by simp)) hne

theorem local_concat {place : Place} {name : FileName}
    (h : endsAt tree (Path.ofPlace (place ++ [name])) = false) :
    Local tree (place ++ [name]) ↔ Local tree place := by
  simp only [Local, nearest_concat h]

theorem findFile?_eq_none_iff_local (h : endsAt tree (Path.ofPlace tree.here) = false) :
    findFile? tree (Path.ofPlace tree.here) = none ↔ Local tree tree.here := by
  rw [Option.eq_none_iff_forall_ne_some]
  constructor
  · intro hnone front hnearest _ _
    cases hfile : tree.reaches (fileIn (Path.ofPlace front)) with
    | false => rfl
    | true =>
      have hfound := (findFile?_ofPlace tree tree.here _).2 ⟨front, hnearest, hfile, rfl⟩
      exact absurd hfound (hnone _)
  · intro hlocal file hfound
    obtain ⟨front, hnearest, hfile, _⟩ := (findFile?_ofPlace tree tree.here file).1 hfound
    have hne : front ≠ tree.here := by
      rintro rfl
      exact absurd (h.symm.trans hnearest.ends) Bool.false_ne_true
    rw [hlocal front hnearest hnearest.above hne] at hfile
    cases hfile

/-- A search from a relative path ends where the search from the canonical path does. -/
theorem endsAt_of_descends {path : Path} {names : Place} {entries : Entries}
    (hpath : path.Descends names)
    (hat : tree.at? (tree.here ++ names) = some (.folder entries)) (hshort : Short path)
    (hlength : Short (Path.ofPlace (tree.here ++ names))) :
    endsAt tree path = endsAt tree (Path.ofPlace (tree.here ++ names)) :=
  endsAt_congr (hpath.spells hat) (Path.spells_ofPlace hat) hshort hlength

theorem sameFile_iff_local_of_ends {path : Path} {names : Place} {entries : Entries}
    (hpath : path.Descends names)
    (hat : tree.at? (tree.here ++ names) = some (.folder entries)) (hshort : Short path)
    (hlength : Short (Path.ofPlace (tree.here ++ names)))
    (hends : endsAt tree (Path.ofPlace (tree.here ++ names)) = true) :
    SameFile tree (findFile? tree path) (findFile? tree (Path.ofPlace (tree.here ++ names)))
      ↔ Local tree (tree.here ++ names) :=
  iff_of_true
    (sameFile_of_ends (hpath.spells hat) (Path.spells_ofPlace hat) hshort hlength hends)
    (local_of_ends hends)

/-- A search from a relative path finds what the search from the canonical path of the folder
finds, unless this is a configuration file above the current folder. -/
theorem sameFile_iff_local {path : Path} {names : Place} {entries : Entries}
    (hpath : path.Descends names)
    (hat : tree.at? (tree.here ++ names) = some (.folder entries)) (hshort : Short path)
    (hlength : Short (Path.ofPlace (tree.here ++ names))) :
    SameFile tree (findFile? tree path) (findFile? tree (Path.ofPlace (tree.here ++ names)))
      ↔ Local tree (tree.here ++ names) := by
  induction path using Path.parent_induction generalizing names entries with
  | last path hnone =>
    have hsame := endsAt_of_descends hpath hat hshort hlength
    cases hends : endsAt tree (Path.ofPlace (tree.here ++ names)) with
    | true => exact sameFile_iff_local_of_ends hpath hat hshort hlength hends
    | false =>
      rw [findFile?_of_not_ends (hsame.trans hends), hnone, Option.bind_none, sameFile_none_iff]
      rw [hpath.of_parent?_eq_none hnone, List.append_nil] at hends ⊢
      exact findFile?_eq_none_iff_local hends
  | up path parent hparent ih =>
    have hsame := endsAt_of_descends hpath hat hshort hlength
    have hdescends := hpath.parent hparent
    cases hends : endsAt tree (Path.ofPlace (tree.here ++ names)) with
    | true => exact sameFile_iff_local_of_ends hpath hat hshort hlength hends
    | false =>
      rw [findFile?_of_not_ends (hsame.trans hends), hparent, Option.bind_some]
      rcases List.eq_nil_or_concat names with rfl | ⟨rest, name, rfl⟩
      · -- The path was `.`, whose parent is the current folder again.
        exact ih hdescends hat (hshort.parent hparent) hlength
      · rw [List.concat_eq_append] at hat hlength hends hdescends ⊢
        rw [List.dropLast_concat] at hdescends
        rw [← List.append_assoc] at hat hlength hends ⊢
        have hcanonicalParent := Path.parent?_ofPlace_concat (tree.here ++ rest) name
        obtain ⟨above, habove⟩ := FileTree.folder_of_append hat
        rw [findFile?_of_not_ends hends, hcanonicalParent, Option.bind_some, local_concat hends]
        exact ih hdescends habove (hshort.parent hparent) (hlength.parent hcanonicalParent)

/-- From the canonical path of a folder, the search finds the configuration file of the nearest
folder, at or above it, where it ends.  From a relative path that names the way to the folder, it
finds the same file or nothing either, unless that nearest folder is above the current folder and
holds a configuration file. -/
theorem findFile?_respelled {start : Path} {names : Place} {entries : Entries}
    (hstart : start.Descends names)
    (hat : tree.at? (tree.here ++ names) = some (.folder entries)) (hshort : Short start)
    (hlength : Short (Path.ofPlace (tree.here ++ names))) :
    (∀ file, findFile? tree (Path.ofPlace (tree.here ++ names)) = some file
      ↔ ∃ front, Nearest tree (tree.here ++ names) front ∧
          tree.reaches (fileIn (Path.ofPlace front)) = true ∧
          file = fileIn (Path.ofPlace front)) ∧
      (SameFile tree (findFile? tree start)
          (findFile? tree (Path.ofPlace (tree.here ++ names)))
        ↔ ∀ front, Nearest tree (tree.here ++ names) front → front <+: tree.here →
            front ≠ tree.here → tree.reaches (fileIn (Path.ofPlace front)) = false) :=
  ⟨findFile?_ofPlace tree (tree.here ++ names), sameFile_iff_local hstart hat hshort hlength⟩

/-- The name of a folder that searches start in. -/
def workName : FileName := ⟨['s'], rfl⟩

/-- The name of a folder in that folder. -/
def partName : FileName := ⟨['b'], rfl⟩

/-- Configuration files in the current folder and above it, and a folder below it. -/
def layeredTree : FileTree :=
  ⟨[(configName, .file "x".toUTF8),
    (workName, .folder [(configName, .file "y".toUTF8), (partName, .folder [])])], [workName]⟩

/-- Both searches come to the file of the current folder. -/
theorem findFile?_respelled_layered :
    ((⟨"./b"⟩ : Path).Descends [partName] ∧
      layeredTree.at? (layeredTree.here ++ [partName]) = some (.folder []) ∧
      Short ⟨"./b"⟩ ∧ Short (Path.ofPlace (layeredTree.here ++ [partName]))) ∧
    findFile? layeredTree ⟨"./b"⟩ = some ⟨"./.gherkinrc.json"⟩ ∧
      SameFile layeredTree (findFile? layeredTree ⟨"./b"⟩)
        (findFile? layeredTree (Path.ofPlace (layeredTree.here ++ [partName]))) := by
  have hstart : (⟨"./b"⟩ : Path).Descends [partName] := Or.inr (by decide)
  have hat : layeredTree.at? (layeredTree.here ++ [partName]) = some (.folder []) := rfl
  have hshort : Short ⟨"./b"⟩ := by
    unfold Short
    decide +kernel
  have hlength : Short (Path.ofPlace (layeredTree.here ++ [partName])) := by
    unfold Short
    decide +kernel
  refine ⟨⟨hstart, hat, hshort, hlength⟩, by decide +kernel, ?_⟩
  refine (findFile?_respelled hstart hat hshort hlength).2.2 fun front hnearest _ hne => ?_
  have hpart : endsAt layeredTree (Path.ofPlace ([workName] ++ [partName])) = false := by
    decide +kernel
  have hwork : endsAt layeredTree (Path.ofPlace [workName]) = true := by decide +kernel
  exact absurd ((nearest_of_ends hwork).1 ((nearest_concat hpart).1 hnearest)) hne

/-- A configuration file above the current folder. -/
def loftyTree : FileTree :=
  ⟨[(configName, .file "x".toUTF8), (workName, .folder [])], [workName]⟩

/-- The configuration file is found from the canonical path of the current folder, and not from
`.`, which leads to the same folder. -/
theorem findFile?_lofty :
    loftyTree.find .target ⟨"."⟩ = .ok ([workName], .folder []) ∧
      loftyTree.find .target ⟨"/s"⟩ = .ok ([workName], .folder []) ∧
      findFile? loftyTree ⟨"."⟩ = none ∧
      findFile? loftyTree ⟨"/s"⟩ = some ⟨"/.gherkinrc.json"⟩ :=
  ⟨rfl, rfl, by decide +kernel, by decide +kernel⟩

end Config

end FeatureDigest
