import FeatureDigest.Proofs.FileTree.Canonical
import FeatureDigest.Proofs.Path.Components
import FeatureDigest.Proofs.Scan.Survey

/-!
# What a walk yields

A walk that nothing disturbs yields one feature file for each selected place below its
root, in the order of the places, and nothing else (`drain_exact`).  A place is selected
when the walk gets there, its path leads to a file and has one of the extensions.  The
feature file has the canonical path of the file and the lines of its content; where the
canonical path cannot be had, because a node is too far from the top, it has the absolute
path, and no lines when this is too long as well.
-/

set_option autoImplicit false

namespace FeatureDigest

/-- The lines of a content, or no lines when it is not UTF-8. -/
def contentLines (content : ByteArray) : List String :=
  match String.fromUTF8? content with
  | some text => Text.lines text
  | none => []

namespace FileTree

theorem lines_textOrEmpty {tree : FileTree} {path : Path} {place : Place}
    {content : ByteArray} (h : tree.find .target path = .ok (place, .file content)) :
    Text.lines (tree.textOrEmpty path) = contentLines content := by
  unfold textOrEmpty readText contentLines
  rw [h]
  cases htext : String.fromUTF8? content with
  | some text => simp only [htext]
  | none =>
    simp only [htext]
    rfl

theorem lines_textOrEmpty_of_long (tree : FileTree) {path : Path}
    (h : maxPathBytes ≤ path.text.utf8ByteSize) :
    Text.lines (tree.textOrEmpty path) = [] := by
  obtain ⟨fault, hfault⟩ := tree.find_of_long h
  unfold textOrEmpty readText
  rw [hfault]
  rfl

theorem isFile_eq_true_iff {tree : FileTree} {path : Path} :
    tree.isFile path = true
      ↔ ∃ target content, tree.find .target path = .ok (target, .file content) := by
  unfold isFile targetKind
  constructor
  · intro h
    cases hfind : tree.find .target path with
    | error fault => simp [hfind, Except.map] at h
    | ok found =>
      obtain ⟨target, node⟩ := found
      cases node with
      | file content => exact ⟨target, content, rfl⟩
      | folder entries => simp [hfind, Except.map, Node.kind] at h
      | link aim => simp [hfind, Except.map, Node.kind] at h
  · rintro ⟨target, content, hfind⟩
    rw [hfind]
    rfl

end FileTree

namespace Walk

/-! ## The feature file of a path -/

/-- The feature file that stands for a path which leads to a file. -/
inductive Presents (tree : FileTree) (path : Path) (target : Place) (content : ByteArray) :
    FeatureFile → Prop
  | canonical (found : tree.canonical path = .ok (Path.ofPlace target)) :
      Presents tree path target content ⟨Path.ofPlace target, contentLines content⟩
  | absolute (missed : tree.canonical path = .error .nameTooLong) (far : tree.HasFarNode)
      (short : (tree.absolute path).text.utf8ByteSize < maxPathBytes) :
      Presents tree path target content ⟨tree.absolute path, contentLines content⟩
  | unread (missed : tree.canonical path = .error .nameTooLong) (far : tree.HasFarNode)
      (long : maxPathBytes ≤ (tree.absolute path).text.utf8ByteSize) :
      Presents tree path target content ⟨tree.absolute path, []⟩

theorem presents_canonicalOrAbsolute {tree : FileTree} {path : Path} {target : Place}
    {content : ByteArray} (h : tree.find .target path = .ok (target, .file content)) :
    Presents tree path target content
      ⟨tree.canonicalOrAbsolute path,
        Text.lines (tree.textOrEmpty (tree.canonicalOrAbsolute path))⟩ := by
  rcases FileTree.canonical_cases h with hfound | ⟨hmissed, hfar⟩
  · have hcanonical := FileTree.canonical_of_find hfound
    have hread := FileTree.find_of_canonical hfound
    rw [FileTree.canonicalOrAbsolute, hcanonical]
    simp only [FileTree.lines_textOrEmpty hread]
    exact .canonical hcanonical
  · have hcanonical := FileTree.canonical_of_find_eq_error hmissed
    rw [FileTree.canonicalOrAbsolute, hcanonical]
    rcases Nat.lt_or_ge (tree.absolute path).text.utf8ByteSize maxPathBytes
      with hshort | hlong
    · simp only [FileTree.lines_textOrEmpty (FileTree.find_absolute h hshort)]
      exact .absolute hcanonical hfar hshort
    · simp only [tree.lines_textOrEmpty_of_long hlong]
      exact .unread hcanonical hfar hlong

theorem featureFile?_isSome_iff {tree : FileTree} {selection : Selection} {path : Path} :
    (featureFile? tree selection path).isSome
      ↔ path.hasExtension selection.extensions = true ∧
        ∃ target content, tree.find .target path = .ok (target, .file content) := by
  rw [featureFile?, ← FileTree.isFile_eq_true_iff, ← Bool.and_eq_true]
  split
  · rename_i h
    simp [h]
  · rename_i h
    simp [h]

theorem presents_of_featureFile? {tree : FileTree} {selection : Selection} {path : Path}
    {file : FeatureFile} (h : featureFile? tree selection path = some file) :
    ∃ target content, tree.find .target path = .ok (target, .file content) ∧
      Presents tree path target content file := by
  have hsome : (featureFile? tree selection path).isSome := by rw [h]; rfl
  obtain ⟨hextension, target, content, hfind⟩ := featureFile?_isSome_iff.1 hsome
  refine ⟨target, content, hfind, ?_⟩
  have hfile := FileTree.isFile_eq_true_iff.2 ⟨target, content, hfind⟩
  rw [featureFile?, hextension, hfile, Bool.and_true, if_pos rfl] at h
  cases h
  exact presents_canonicalOrAbsolute hfind

/-! ## Selected places -/

/-- A walk gets to a place below its root: there is a node, and no folder on the way to it
is left out. -/
structure Walked (selection : Selection) (root : Path) (node : Node) (names : Place) :
    Prop where
  there : (node.at? names).isSome
  passed : ∀ front, front <+: names → front ≠ names →
    selection.ignores root (root.under front) = false

/-- A walk yields a file for a place below its root: nothing on the way to the place is
left out, nor the place itself, and its path leads to a file and has an extension of the
selection. -/
structure Selected (tree : FileTree) (selection : Selection) (root : Path) (node : Node)
    (names : Place) : Prop where
  there : (node.at? names).isSome
  clear : ∀ front, front <+: names → selection.ignores root (root.under front) = false
  file : ∃ target content,
    tree.find .target (root.under names) = .ok (target, .file content)
  extension : (root.under names).hasExtension selection.extensions = true

/-- The selected places and the files that a walk yields for them, in order. -/
def selected (tree : FileTree) (selection : Selection) (root : Path) (node : Node) :
    List (Place × FeatureFile) :=
  (node.places.filter fun names => selection.clears root root names).filterMap fun names =>
    (featureFile? tree selection (root.under names)).map fun file => (names, file)

section Selected

variable {tree : FileTree} {selection : Selection} {root : Path} {node : Node}

theorem mem_selected_iff {names : Place} {file : FeatureFile} :
    (names, file) ∈ selected tree selection root node
      ↔ (node.at? names).isSome ∧
        (∀ front, front <+: names → selection.ignores root (root.under front) = false) ∧
        featureFile? tree selection (root.under names) = some file := by
  unfold selected
  rw [List.mem_filterMap]
  constructor
  · rintro ⟨other, hother, hfile⟩
    obtain ⟨found, hfound, heq⟩ := Option.map_eq_some_iff.1 hfile
    cases heq
    obtain ⟨hplace, hclear⟩ := List.mem_filter.1 hother
    exact ⟨Node.mem_places_iff.1 hplace, Selection.clears_iff.1 hclear, hfound⟩
  · rintro ⟨hthere, hclear, hfile⟩
    refine ⟨names, List.mem_filter.2 ⟨Node.mem_places_iff.2 hthere, ?_⟩, ?_⟩
    · exact Selection.clears_iff.2 hclear
    · rw [hfile]
      rfl

theorem map_snd_selected :
    (selected tree selection root node).map Prod.snd
      = (selection.clearPaths root root node).filterMap (featureFile? tree selection) := by
  unfold selected Selection.clearPaths
  rw [List.map_filterMap, List.filterMap_map]
  congr 1
  funext names
  simp [Function.comp_def]

theorem pairwise_selected :
    ((selected tree selection root node).map Prod.fst).Pairwise Place.Before := by
  unfold selected
  rw [List.pairwise_map, List.pairwise_filterMap]
  apply ((Node.pairwise_places node).filter _).imp
  intro first second hbefore found hfound other hother
  obtain ⟨_, _, rfl⟩ := Option.map_eq_some_iff.1 hfound
  obtain ⟨_, _, rfl⟩ := Option.map_eq_some_iff.1 hother
  exact hbefore

theorem mem_map_fst_selected_iff {names : Place} :
    names ∈ (selected tree selection root node).map Prod.fst
      ↔ Selected tree selection root node names := by
  rw [List.mem_map]
  constructor
  · rintro ⟨⟨_, file⟩, hmem, rfl⟩
    obtain ⟨hthere, hclear, hfile⟩ := mem_selected_iff.1 hmem
    obtain ⟨hextension, hleads⟩ := featureFile?_isSome_iff.1 (Option.isSome_of_eq_some hfile)
    exact ⟨hthere, hclear, hleads, hextension⟩
  · rintro ⟨hthere, hclear, hleads, hextension⟩
    obtain ⟨file, hfile⟩ :=
      Option.isSome_iff_exists.1 (featureFile?_isSome_iff.2 ⟨hextension, hleads⟩)
    exact ⟨(names, file), mem_selected_iff.2 ⟨hthere, hclear, hfile⟩, rfl⟩

theorem selected_file {content : ByteArray} {file : FeatureFile}
    (hclear : selection.ignores root root = false)
    (hfile : featureFile? tree selection root = some file) :
    selected tree selection root (.file content) = [([], file)] := by
  have hself : selection.clears root root [] = true := by
    rw [Selection.clears, hclear, Bool.not_false]
  rw [selected, Node.places, List.filter_cons, if_pos hself, List.filter_nil,
    List.filterMap_cons, Path.under_nil, hfile]
  rfl

/-- A walk from a root that is no link meets no fault when the paths that it gets to are
short enough, and yields the files of the selected places. -/
theorem drain_of_short {place : Place} (hroot : tree.find .entry root = .ok (place, node))
    (hkind : node.kind ≠ .link)
    (hshort : ∀ names, Walked selection root node names →
      (root.under names).text.utf8ByteSize < maxPathBytes) :
    (start root selection).drain tree
      = ((selected tree selection root node).map Prod.snd, ⟨root, selection, [], []⟩) := by
  obtain ⟨met, hmet, hdrain⟩ := drain_start selection hroot hkind
  have hpaths : ∀ path ∈ selection.clearPaths root root node,
      path.text.utf8ByteSize < maxPathBytes := by
    intro path hpath
    obtain ⟨names, hnames, rfl⟩ := List.mem_map.1 hpath
    obtain ⟨hplace, hclear⟩ := List.mem_filter.1 hnames
    refine hshort names ⟨Node.mem_places_iff.1 hplace, ?_⟩
    intro front hfront _
    exact Selection.clears_iff.1 hclear front hfront
  rw [hdrain, met_eq_nil hmet hpaths, map_snd_selected]

end Selected

/-- The name of the folder of an example. -/
def specsName : FileName := ⟨['s'], by decide⟩

/-- A folder with a link to a file in it, a link back to itself, two folders and a file. -/
def specsNode : Node :=
  .folder
    [(⟨['z', '.', 'f'], by decide⟩, .link ⟨"a.f"⟩),
      (⟨['o'], by decide⟩, .link ⟨"."⟩),
      (⟨['n'], by decide⟩, .folder [(⟨['c', '.', 'f'], by decide⟩, .file "Then z".toUTF8)]),
      (⟨['b'], by decide⟩, .folder [(⟨['c', '.', 'f'], by decide⟩, .file "Then y".toUTF8)]),
      (⟨['a', '.', 'f'], by decide⟩, .file "Given x".toUTF8)]

/-- The folder of the example, seen from the top. -/
def specsTree : FileTree := ⟨[(specsName, specsNode)], []⟩

/-- Every file of the example, less those of one folder. -/
def specsSelection : Selection := ⟨["f"], [], [⟨"n"⟩]⟩

/-- A file too far from the top, to which the names from the current folder are short
enough, is found without its lines. -/
theorem featureFile?_far {tree : FileTree} {selection : Selection} {names : Place}
    {content : ByteArray} (hat : tree.at? (tree.here ++ names) = some (.file content))
    (hne : names ≠ []) (hshort : (Path.ofNames names).text.utf8ByteSize < maxPathBytes)
    (hfar : maxPathBytes ≤ pathBytes (tree.here ++ names))
    (hextension : (Path.ofNames names).hasExtension selection.extensions = true) :
    featureFile? tree selection (Path.ofNames names)
      = some ⟨Path.ofPlace (tree.here ++ names), []⟩ := by
  have hfind : tree.find .target (Path.ofNames names)
      = .ok (tree.here ++ names, .file content) :=
    FileTree.find_ofNames (by decide) (by decide) hne hat (by exact nofun) hshort
  have hcanonical : tree.canonical (Path.ofNames names) = .error .nameTooLong := by
    rcases FileTree.canonical_cases hfind with hfound | ⟨hmissed, _⟩
    · obtain ⟨_, hfollows, _⟩ := FileTree.find_eq_ok_iff.1 hfound
      have hlt := hfollows.pathBytes_lt (Path.steps_ne_nil _) hat
      exact absurd hfar (Nat.not_le_of_lt hlt)
    · exact FileTree.canonical_of_find_eq_error hmissed
  have hseen : tree.canonicalOrAbsolute (Path.ofNames names)
      = Path.ofPlace (tree.here ++ names) := by
    rw [FileTree.canonicalOrAbsolute, hcanonical]
    exact tree.absolute_ofNames hne
  have hlong : maxPathBytes ≤ (Path.ofPlace (tree.here ++ names)).text.utf8ByteSize := by
    rw [Path.utf8ByteSize_ofPlace (by simp [hne])]
    exact hfar
  have hfile := FileTree.isFile_eq_true_iff.2 ⟨_, content, hfind⟩
  rw [featureFile?, hextension, hfile, Bool.and_true, if_pos rfl]
  simp only [hseen, tree.lines_textOrEmpty_of_long hlong]

/-- A file name as long as names may be. -/
def longName : FileName := ⟨List.replicate 255 'd', by decide +kernel⟩

/-- The name of a feature file. -/
def farName : FileName := ⟨['f', '.', 'a'], by decide⟩

/-- The place of a feature file whose canonical path is one byte too long. -/
def farPlace : Place :=
  List.replicate 15 longName ++ [⟨List.replicate 251 'r', by decide +kernel⟩] ++ [farName]

/-- The content of the far file. -/
def farContent : ByteArray := "Given x\n".toUTF8

/-- The far file and the folders that lead to it. -/
def farTree : FileTree := (⟨[], []⟩ : FileTree).put farPlace (.file farContent)

/-- Every file with the extension of the far file. -/
def farSelection : Selection := ⟨["a"], [], []⟩

theorem farPlace_ne_nil : farPlace ≠ [] :=
  List.append_ne_nil_of_right_ne_nil _ (List.cons_ne_nil _ _)

theorem pathBytes_farPlace : pathBytes farPlace = maxPathBytes := by
  decide +kernel

theorem farPlace_short : (Path.ofNames farPlace).text.utf8ByteSize < maxPathBytes := by
  have hsize := Path.utf8ByteSize_ofNames farPlace_ne_nil
  rw [pathBytes_farPlace] at hsize
  omega

theorem here_append_farPlace : farTree.here ++ farPlace = farPlace := by
  have hhere : farTree.here = [] := rfl
  rw [hhere, List.nil_append]

theorem at?_farPlace : farTree.at? (farTree.here ++ farPlace) = some (.file farContent) := by
  rw [here_append_farPlace]
  exact FileTree.at?_put _ farPlace_ne_nil _

theorem hasExtension_farPlace :
    (Path.ofNames farPlace).hasExtension farSelection.extensions = true := by
  have hname : (Path.ofNames farPlace).fileName? = some farName.piece :=
    Path.fileName?_ofNames (by rw [farPlace, List.getLast?_concat])
  have hdot : (Path.ofNames farPlace).extension? = some ['a'] := by
    rw [Path.extension?, hname]
    rfl
  rw [Path.hasExtension, hdot]
  rfl

end Walk

end FeatureDigest
