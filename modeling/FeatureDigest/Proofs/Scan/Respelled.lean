import Mathlib.Data.List.Basic
import FeatureDigest.Proofs.Scan.Literal
import FeatureDigest.Proofs.Scan.Yield

/-!
# Spellings of the root

In a tree without links, what a walk yields for ignored paths that are made of names does not
depend on how its root is spelled (`Walk.drain_respelled`): these are the files below the folder,
under their canonical paths, that do not start with an ignored path.  A root that itself starts
with names may start with an ignored path, or the other way round, and then more is left out
(`Walk.drain_overlapped`).
-/

set_option autoImplicit false

namespace FeatureDigest

/-! ## Roots and ignored paths -/

namespace Path

/-- All that a path names are files and folders below where it starts. -/
def IsInner (path : Path) : Prop :=
  ∀ component ∈ path.components, ∃ piece, component = .name piece

theorem IsInner.barred_eq {path : Path} (h : path.IsInner) : path.barred = path.components := by
  apply Path.barred_eq
  intro hhere
  obtain ⟨piece, hpiece⟩ := h _ (List.mem_of_head? hhere)
  cases hpiece

/-- Of the two paths, one starts with the other one, which is not empty. -/
def Overlaps (root ignored : Path) : Prop :=
  ignored.components ≠ [] ∧
    (ignored.components <+: root.components ∨ root.components <+: ignored.components)

/-- The path starts at the top or with `.`, or no ignored path overlaps with it. -/
def Distinct (root : Path) (paths : List Path) : Prop :=
  root.components.head? = some .top ∨ root.components.head? = some .here ∨
    ∀ ignored ∈ paths, ¬ root.Overlaps ignored

theorem Distinct.not_prefix {root ignored : Path} {paths : List Path} (h : root.Distinct paths)
    (hmem : ignored ∈ paths) (hinner : ignored.IsInner) (hne : ignored.components ≠ [])
    (names : Place) : ¬ ignored.components <+: root.components ++ names.components := by
  intro hbegins
  have hhead {component : Component} (hroot : root.components.head? = some component) :
      ∃ piece, component = .name piece := by
    obtain ⟨rest, hrest⟩ := hbegins
    obtain ⟨first, others, hignored⟩ := List.exists_cons_of_ne_nil hne
    have hfirst := congrArg List.head? hrest
    rw [hignored, List.cons_append, List.head?_cons, List.head?_append, hroot,
      Option.some_or] at hfirst
    cases hfirst
    exact hinner _ (hignored ▸ List.mem_cons_self)
  rcases h with htop | hhere | hapart
  · obtain ⟨piece, hpiece⟩ := hhead htop
    cases hpiece
  · obtain ⟨piece, hpiece⟩ := hhead hhere
    cases hpiece
  · exact hapart ignored hmem
      ⟨hne, List.prefix_or_prefix_of_prefix hbegins (List.prefix_append _ _)⟩

end Path

/-- Ignored paths made of names leave out what starts with them below the root. -/
theorem Selection.ignores_inner_iff (extensions : List String) {root : Path} {paths : List Path}
    (hinner : ∀ ignored ∈ paths, ignored.IsInner) (hroot : root.Distinct paths)
    {names : Place} :
    (⟨extensions, [], paths⟩ : Selection).ignores root (root.under names) = true
      ↔ ∃ ignored ∈ paths, ignored.components <+: names.components := by
  have hliteral : (⟨extensions, [], paths⟩ : Selection)
      = (⟨extensions, [], paths⟩ : Selection).literal := rfl
  rw [hliteral, Selection.ignores_literal_iff]
  constructor
  · rintro ⟨ignored, hmem, hbarred⟩
    refine ⟨ignored, hmem, ?_⟩
    rw [(hinner ignored hmem).barred_eq] at hbarred
    rcases hbarred with hbelow | hwhole
    · exact hbelow
    · by_cases hne : ignored.components = []
      · rw [hne]
        exact List.nil_prefix
      · exact absurd hwhole (hroot.not_prefix hmem (hinner ignored hmem) hne names)
  · rintro ⟨ignored, hmem, hbegins⟩
    refine ⟨ignored, hmem, Or.inl ?_⟩
    rwa [(hinner ignored hmem).barred_eq]

namespace Walk

/-! ## What is kept below a folder -/

/-- Names below a folder lead to a file with one of the extensions, and do not start with an
ignored path. -/
structure Kept (extensions : List String) (paths : List Path) (node : Node) (names : Place) :
    Prop where
  file : ∃ content, node.at? names = some (.file content)
  extension : (Path.ofNames names).hasExtension extensions = true
  outside : ∀ ignored ∈ paths, ¬ ignored.components <+: names.components

/-- The names have one of the extensions, and do not start with an ignored path. -/
def keeps (extensions : List String) (paths : List Path) (names : Place) : Bool :=
  (Path.ofNames names).hasExtension extensions
    && paths.all fun ignored => !ignored.components.isPrefixOf names.components

theorem keeps_iff {extensions : List String} {paths : List Path} {names : Place} :
    keeps extensions paths names = true
      ↔ (Path.ofNames names).hasExtension extensions = true ∧
        ∀ ignored ∈ paths, ¬ ignored.components <+: names.components := by
  simp only [keeps, Bool.and_eq_true, List.all_eq_true, Bool.not_eq_true',
    ← List.isPrefixOf_iff_prefix, Bool.not_eq_true]

/-- The feature file for names below the folder of a place, if they are kept. -/
def keptFile? (extensions : List String) (paths : List Path) (place : Place) (node : Node)
    (names : Place) : Option FeatureFile :=
  match node.at? names with
  | some (.file content) =>
    if keeps extensions paths names then
      some ⟨Path.ofPlace (place ++ names), contentLines content⟩
    else none
  | _ => none

theorem keptFile?_eq_some_iff {extensions : List String} {paths : List Path} {place : Place}
    {node : Node} {names : Place} {file : FeatureFile} :
    keptFile? extensions paths place node names = some file
      ↔ Kept extensions paths node names ∧ ∃ content, node.at? names = some (.file content) ∧
          file = ⟨Path.ofPlace (place ++ names), contentLines content⟩ := by
  constructor
  · intro h
    unfold keptFile? at h
    split at h
    · rename_i content hat
      split at h
      · rename_i hkeeps
        obtain ⟨hextension, houtside⟩ := keeps_iff.1 hkeeps
        cases h
        exact ⟨⟨⟨content, hat⟩, hextension, houtside⟩, content, hat, rfl⟩
      · cases h
    · cases h
  · rintro ⟨⟨_, hextension, houtside⟩, content, hat, rfl⟩
    have hkeeps := keeps_iff.2 ⟨hextension, houtside⟩
    rw [keptFile?, hat]
    simp only [hkeeps, if_true]

/-- The kept names below the folder of a place, in order, with their feature files. -/
def keptFiles (extensions : List String) (paths : List Path) (place : Place) (node : Node) :
    List (Place × FeatureFile) :=
  node.places.filterMap fun names =>
    (keptFile? extensions paths place node names).map fun file => (names, file)

theorem mem_keptFiles_iff {extensions : List String} {paths : List Path} {place : Place}
    {node : Node} {names : Place} {file : FeatureFile} :
    (names, file) ∈ keptFiles extensions paths place node
      ↔ keptFile? extensions paths place node names = some file := by
  rw [keptFiles, List.mem_filterMap]
  constructor
  · rintro ⟨other, _, hfile⟩
    obtain ⟨found, hfound, heq⟩ := Option.map_eq_some_iff.1 hfile
    cases heq
    exact hfound
  · intro hfile
    obtain ⟨_, content, hat, _⟩ := keptFile?_eq_some_iff.1 hfile
    exact ⟨names, Node.mem_places_iff.2 (Option.isSome_of_eq_some hat), by rw [hfile]; rfl⟩

theorem pairwise_keptFiles (extensions : List String) (paths : List Path) (place : Place)
    (node : Node) :
    ((keptFiles extensions paths place node).map Prod.fst).Pairwise Place.Before := by
  rw [keptFiles, List.pairwise_map, List.pairwise_filterMap]
  apply (Node.pairwise_places node).imp
  intro first second hbefore found hfound other hother
  obtain ⟨_, _, rfl⟩ := Option.map_eq_some_iff.1 hfound
  obtain ⟨_, _, rfl⟩ := Option.map_eq_some_iff.1 hother
  exact hbefore

theorem mem_map_fst_keptFiles_iff {extensions : List String} {paths : List Path} {place : Place}
    {node : Node} {names : Place} :
    names ∈ (keptFiles extensions paths place node).map Prod.fst
      ↔ Kept extensions paths node names := by
  rw [List.mem_map]
  constructor
  · rintro ⟨⟨_, file⟩, hmem, rfl⟩
    exact (keptFile?_eq_some_iff.1 (mem_keptFiles_iff.1 hmem)).1
  · intro hkept
    obtain ⟨content, hat⟩ := hkept.file
    have hfile : keptFile? extensions paths place node names
        = some ⟨Path.ofPlace (place ++ names), contentLines content⟩ :=
      keptFile?_eq_some_iff.2 ⟨hkept, content, hat, rfl⟩
    exact ⟨(names, _), mem_keptFiles_iff.2 hfile, rfl⟩

/-! ## What is selected below a root -/

theorem Presents.eq_of_near {tree : FileTree} {path : Path} {target : Place}
    {content : ByteArray} {file : FeatureFile} (h : Presents tree path target content file)
    (hnear : ¬ tree.HasFarNode) : file = ⟨Path.ofPlace target, contentLines content⟩ := by
  cases h with
  | canonical => rfl
  | absolute missed far => exact absurd far hnear
  | unread missed far => exact absurd far hnear

section Respelled

variable {tree : FileTree} {root : Path} {place names : Place} {entries : Entries}
  {extensions : List String} {paths : List Path}

theorem clears_inner_iff (hinner : ∀ ignored ∈ paths, ignored.IsInner)
    (hroot : root.Distinct paths) :
    (⟨extensions, [], paths⟩ : Selection).clears root root names = true
      ↔ ∀ ignored ∈ paths, ¬ ignored.components <+: names.components := by
  rw [Selection.clears_iff]
  constructor
  · intro hclear ignored hmem hbegins
    have hignores := (Selection.ignores_inner_iff extensions hinner hroot).2
      ⟨ignored, hmem, hbegins⟩
    rw [hclear names List.prefix_rfl] at hignores
    cases hignores
  · intro houtside front hfront
    rw [← Bool.not_eq_true, Selection.ignores_inner_iff extensions hinner hroot]
    rintro ⟨ignored, hmem, hbegins⟩
    exact houtside ignored hmem (hbegins.trans (Place.components_prefix hfront))

/-- Where no node is too far from the top, the feature file for names below a folder is the same
under each path of the folder. -/
theorem featureFile?_under (hnear : ¬ tree.HasFarNode) (hplain : tree.Linkless)
    (hfind : tree.find .target root = .ok (place, .folder entries))
    (hshort : (root.under names).text.utf8ByteSize < maxPathBytes)
    (hthere : ((Node.folder entries).at? names).isSome)
    (houtside : ∀ ignored ∈ paths, ¬ ignored.components <+: names.components) :
    featureFile? tree ⟨extensions, [], paths⟩ (root.under names)
      = keptFile? extensions paths place (.folder entries) names := by
  obtain ⟨child, hchild⟩ := Option.isSome_iff_exists.1 hthere
  have hat : tree.at? (place ++ names) = some child := by
    rw [FileTree.at?_append, (FileTree.find_eq_ok_iff.1 hfind).2.2]
    exact hchild
  have hkind : child.kind ≠ .link := by
    cases child with
    | file content => exact nofun
    | folder below => exact nofun
    | link target => exact absurd hat (hplain _ target)
  have hunder := FileTree.find_under hfind hchild hkind hshort
  cases child with
  | link target => exact absurd rfl hkind
  | folder below =>
    have hfile : tree.isFile (root.under names) = false := by
      rw [FileTree.isFile, FileTree.targetKind, hunder]
      rfl
    rw [featureFile?, hfile, Bool.and_false, keptFile?, hchild]
    rfl
  | file content =>
    have hne : names ≠ [] := by
      rintro rfl
      cases hchild
    have hextension : (root.under names).hasExtension extensions
        = (Path.ofNames names).hasExtension extensions := by
      have hlast := List.getLast?_eq_some_getLast hne
      simp only [Path.hasExtension, Path.extension?, root.fileName?_under hlast,
        Path.fileName?_ofNames hlast]
    have hfile := FileTree.isFile_eq_true_iff.2 ⟨_, content, hunder⟩
    have hseen := (presents_canonicalOrAbsolute hunder).eq_of_near hnear
    have hkeeps : keeps extensions paths names = (Path.ofNames names).hasExtension extensions := by
      rw [Bool.eq_iff_iff, keeps_iff]
      exact and_iff_left houtside
    rw [featureFile?, hfile, Bool.and_true, hextension, keptFile?, hchild]
    simp only [hkeeps, hseen]

/-- What a root selects in a folder are the kept files, whatever the root is spelled like. -/
theorem selected_eq_keptFiles (hnear : ¬ tree.HasFarNode) (hplain : tree.Linkless)
    (hinner : ∀ ignored ∈ paths, ignored.IsInner)
    (hfind : tree.find .target root = .ok (place, .folder entries))
    (hshort : ∀ names, Walked ⟨extensions, [], paths⟩ root (.folder entries) names →
      (root.under names).text.utf8ByteSize < maxPathBytes)
    (hroot : root.Distinct paths) :
    selected tree ⟨extensions, [], paths⟩ root (.folder entries)
      = keptFiles extensions paths place (.folder entries) := by
  rw [selected, keptFiles, List.filterMap_filter]
  apply List.filterMap_congr
  intro names hmem
  have hthere := Node.mem_places_iff.1 hmem
  cases hclears : (⟨extensions, [], paths⟩ : Selection).clears root root names with
  | true =>
    have houtside := (clears_inner_iff hinner hroot).1 hclears
    have hwalked : Walked ⟨extensions, [], paths⟩ root (.folder entries) names :=
      ⟨hthere, fun front hfront _ => Selection.clears_iff.1 hclears front hfront⟩
    rw [if_pos rfl,
      featureFile?_under hnear hplain hfind (hshort names hwalked) hthere houtside]
  | false =>
    rw [if_neg Bool.false_ne_true]
    cases hfile : keptFile? extensions paths place (.folder entries) names with
    | none => rfl
    | some file =>
      have houtside := (keptFile?_eq_some_iff.1 hfile).1.outside
      rw [(clears_inner_iff hinner hroot).2 houtside] at hclears
      cases hclears

/-- In a tree without links and without nodes too far from the top, a walk through a folder yields
the files below the folder that are kept, under their canonical paths and in the order of their
names, whatever its root is spelled like, as long as its paths are short enough and the root is
distinct from the ignored paths, which are made of names. -/
theorem drain_respelled {tree : FileTree} (place : Place) (entries : Entries)
    (extensions : List String) {paths : List Path} (hplain : tree.Linkless)
    (hnear : ¬ tree.HasFarNode) (hinner : ∀ ignored ∈ paths, ignored.IsInner) :
    ∃ found : List (Place × FeatureFile),
      (found.map Prod.fst).Pairwise Place.Before ∧
      (∀ names, names ∈ found.map Prod.fst ↔ Kept extensions paths (.folder entries) names) ∧
      (∀ names file, (names, file) ∈ found → ∃ content,
        (Node.folder entries).at? names = some (.file content) ∧
          file = ⟨Path.ofPlace (place ++ names), contentLines content⟩) ∧
      ∀ root, tree.find .target root = .ok (place, .folder entries) →
        (∀ names, Walked ⟨extensions, [], paths⟩ root (.folder entries) names →
          (root.under names).text.utf8ByteSize < maxPathBytes) →
        root.Distinct paths →
          (start root ⟨extensions, [], paths⟩).drain tree
            = (found.map Prod.snd, ⟨root, ⟨extensions, [], paths⟩, [], []⟩) := by
  refine ⟨keptFiles extensions paths place (.folder entries), pairwise_keptFiles .., ?_, ?_, ?_⟩
  · intro names
    exact mem_map_fst_keptFiles_iff
  · intro names file hmem
    exact (keptFile?_eq_some_iff.1 (mem_keptFiles_iff.1 hmem)).2
  · intro root hfind hshort hroot
    have hentry := (hplain.find_entry root).trans hfind
    rw [drain_of_short hentry (by exact nofun) hshort,
      selected_eq_keptFiles hnear hplain hinner hfind hshort hroot]

end Respelled

/-- A folder with a file and a folder with another file in it. -/
def nestedNode : Node :=
  .folder
    [(⟨['v', '.', 'f'], rfl⟩, .file "Given x".toUTF8),
      (⟨['x'], rfl⟩, .folder [(⟨['w', '.', 'f'], rfl⟩, .file "Then y".toUTF8)])]

/-- The folder of the example, seen from the top. -/
def nestedTree : FileTree := ⟨[(⟨['d'], rfl⟩, nestedNode)], []⟩

theorem linkless_nestedTree : nestedTree.Linkless := by
  intro place target hlink
  have hkinds : ∀ place ∈ nestedTree.top.places,
      (nestedTree.at? place).map Node.kind ≠ some .link := by
    decide
  have hplace : place ∈ nestedTree.top.places :=
    Node.mem_places_iff.2 (Option.isSome_of_eq_some hlink)
  have hkind := hkinds place hplace
  rw [hlink] at hkind
  exact hkind rfl

theorem near_nestedTree : ¬ nestedTree.HasFarNode := by
  rintro ⟨place, hthere, hfar⟩
  have hshort : ∀ place ∈ nestedTree.top.places, pathBytes place < maxPathBytes := by
    decide
  exact absurd hfar (Nat.not_le_of_lt (hshort place (Node.mem_places_iff.2 hthere)))

/-- Spellings of the folder of the example. -/
def nestedRoots : List Path := [⟨"d"⟩, ⟨"./d"⟩, ⟨"d/"⟩, ⟨"/d"⟩]

theorem find_nestedRoots : ∀ root ∈ nestedRoots,
    nestedTree.find .target root = .ok ([⟨['d'], rfl⟩], nestedNode) := by
  simp only [nestedRoots, List.forall_mem_cons]
  refine ⟨rfl, rfl, rfl, rfl, fun root hroot => ?_⟩
  cases hroot

theorem isInner_of_components {path : Path} {piece : Piece} (h : path.components = [.name piece]) :
    path.IsInner := by
  intro component hmem
  rw [h] at hmem
  exact ⟨piece, List.mem_singleton.1 hmem⟩

/-- The file in the other folder is left out, and every spelling yields the same file. -/
theorem drain_respelled_nested :
    (nestedTree.Linkless ∧ ¬ nestedTree.HasFarNode ∧
      ∀ ignored ∈ [(⟨"x"⟩ : Path)], ignored.IsInner) ∧
      ∀ root ∈ nestedRoots, ((start root ⟨["f"], [], [⟨"x"⟩]⟩).drain nestedTree).1
        = [⟨⟨"/d/v.f"⟩, ["Given x"]⟩] := by
  have hinner : ∀ ignored ∈ [(⟨"x"⟩ : Path)], ignored.IsInner := by
    intro ignored hmem
    rw [List.mem_singleton.1 hmem]
    have hcomponents : (⟨"x"⟩ : Path).components = [.name ['x']] := by decide
    exact isInner_of_components hcomponents
  have hpaths : ∀ root ∈ nestedRoots, ∀ names ∈ nestedNode.places,
      (root.under names).text.utf8ByteSize < maxPathBytes := by
    decide
  have hdistinct : ∀ root ∈ nestedRoots, root.Distinct [⟨"x"⟩] := by
    unfold Path.Distinct Path.Overlaps
    decide
  refine ⟨⟨linkless_nestedTree, near_nestedTree, hinner⟩, ?_⟩
  obtain ⟨found, _, _, _, hdrain⟩ := drain_respelled [⟨['d'], rfl⟩] nestedNode.entries ["f"]
    linkless_nestedTree near_nestedTree hinner
  have hall (root : Path) (hroot : root ∈ nestedRoots) :=
    hdrain root (find_nestedRoots root hroot)
      (fun names hwalked => hpaths root hroot names (Node.mem_places_iff.2 hwalked.there))
      (hdistinct root hroot)
  have hfound : ((start ⟨"d"⟩ ⟨["f"], [], [⟨"x"⟩]⟩).drain nestedTree).1
      = [⟨⟨"/d/v.f"⟩, ["Given x"]⟩] := by
    decide +kernel
  rw [hall ⟨"d"⟩ (by decide)] at hfound
  intro root hroot
  rw [hall root hroot]
  exact hfound

/-- A file is kept, and yet not yielded where the root starts with an ignored path. -/
theorem drain_overlapped :
    nestedTree.Linkless ∧ (∀ ignored ∈ [(⟨"d"⟩ : Path)], ignored.IsInner) ∧
      (∀ root ∈ nestedRoots,
        nestedTree.find .target root = .ok ([⟨['d'], rfl⟩], nestedNode)) ∧
      Kept ["f"] [⟨"d"⟩] nestedNode [⟨['v', '.', 'f'], rfl⟩] ∧
      ((start ⟨"./d"⟩ ⟨["f"], [], [⟨"d"⟩]⟩).drain nestedTree).1
        = [⟨⟨"/d/v.f"⟩, ["Given x"]⟩, ⟨⟨"/d/x/w.f"⟩, ["Then y"]⟩] ∧
      ((start ⟨"d"⟩ ⟨["f"], [], [⟨"d"⟩]⟩).drain nestedTree).1 = [] := by
  refine ⟨linkless_nestedTree, ?_, find_nestedRoots, ?_, by decide +kernel, by decide +kernel⟩
  · intro ignored hmem
    rw [List.mem_singleton.1 hmem]
    have hcomponents : (⟨"d"⟩ : Path).components = [.name ['d']] := by decide
    exact isInner_of_components hcomponents
  · exact ⟨⟨_, rfl⟩, by decide, by decide⟩

end Walk

end FeatureDigest
