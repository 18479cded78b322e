import FeatureDigest.Proofs.Scan.Pruning

/-!
# Paths that are skipped

A walk counts its root as skipped when the root leads to nothing, and ends there.  When the root
leads to something, the walk meets folders, files and links below it, and none of them is counted
(`Walk.drain_skipped`), as long as their paths are not too long to be looked at.
-/

set_option autoImplicit false

namespace FeatureDigest.Walk

variable {tree : FileTree} {selection : Selection} {root : Path} {place : Place} {node : Node}

/-! ## What is reached with a root -/

/-- Reaching a root is a fault when the root leads to nothing.  Otherwise what it leads to is
listed if it is a folder, and the root counts as a folder unless it is a link to one. -/
theorem reach_root_cases (tree : FileTree) (root : Path) :
    (∃ fault, reach tree (.root root) = .error fault ∧ tree.reaches root = false) ∨
      ∃ place node kind, tree.find .target root = .ok (place, node) ∧
        reach tree (.root root)
          = .ok ⟨root, kind, if node.kind = .folder then below tree root else []⟩ ∧
        (kind = node.kind ∨ tree.entryKind root = .ok .link) := by
  cases hentry : tree.find .entry root with
  | error cause =>
    refine Or.inl ⟨⟨root, cause⟩, ?_, ?_⟩
    · rw [reach, reachRoot, FileTree.entryKind, hentry]
      rfl
    · refine Bool.eq_false_iff.2 fun hreaches => ?_
      obtain ⟨place, node, hfind⟩ := FileTree.reaches_eq_true_iff.1 hreaches
      obtain ⟨entry, child, hsome⟩ := FileTree.exists_find_entry hfind
      cases hentry.symm.trans hsome
  | ok found =>
    obtain ⟨entry, child⟩ := found
    by_cases hkind : child.kind = .link
    · have hlink : tree.entryKind root = .ok .link := by
        rw [FileTree.entryKind, hentry, ← hkind]
        rfl
      rw [reach, reachRoot, hlink]
      dsimp only
      cases hfind : tree.find .target root with
      | error cause =>
        have hnone : tree.targetKind root = .error cause := by
          rw [FileTree.targetKind, hfind]
          rfl
        refine Or.inl ⟨⟨root, cause⟩, ?_, ?_⟩
        · rw [hnone]
        · rw [FileTree.reaches, hnone]
          rfl
      | ok found =>
        obtain ⟨place, node⟩ := found
        have htarget : tree.targetKind root = .ok node.kind := by
          rw [FileTree.targetKind, hfind]
          rfl
        refine Or.inr ⟨place, node, .link, rfl, ?_, Or.inr rfl⟩
        rw [htarget]
        cases node with
        | file content => rfl
        | folder entries => rfl
        | link target => rfl
    · refine Or.inr ⟨entry, child, child.kind, FileTree.find_of_entry hentry hkind, ?_,
        Or.inl rfl⟩
      rw [reach_root hentry hkind]
      cases child with
      | file content => rfl
      | folder entries => rfl
      | link target => exact absurd rfl hkind

/-! ## What a walk visits -/

/-- Names below the root that a walk comes to: they lead to something from where the root leads,
and nothing in front of them is left out, unless this is the root and a link. -/
structure Visited (tree : FileTree) (selection : Selection) (root : Path) (names : Place) :
    Prop where
  there : ∃ place node, tree.find .target root = .ok (place, node) ∧ (node.at? names).isSome
  passed : ∀ front, front <+: names → front ≠ names → Passable tree selection root front

/-- What is next below a root is surveyed within the steps for what the root leads to, but for
the one to the root itself. -/
theorem surveys_below_root (selection : Selection)
    (hfind : tree.find .target root = .ok (place, node)) :
    ∃ paths budget, budget < 2 * node.size ∧
      Surveys tree selection root (if node.kind = .folder then below tree root else []) paths
        budget ∧
      ∀ path ∈ paths, ∃ names, path = root.under names ∧ (node.at? names).isSome ∧
        ∀ front, front <+: names → front ≠ [] →
          selection.ignores root (root.under front) = false := by
  cases node with
  | file content =>
    exact ⟨[], 0, Nat.mul_pos Nat.two_pos (Node.size_pos _), Surveys.nil, nofun⟩
  | link target =>
    exact ⟨[], 0, Nat.mul_pos Nat.two_pos (Node.size_pos _), Surveys.nil, nofun⟩
  | folder entries =>
    have hsights : Sights tree root (.folder entries) := fun _ => Or.inl ⟨place, hfind⟩
    have hsize : (Node.folder entries).size = 1 + Entries.sizeSum entries := by
      rw [Node.size]
    refine ⟨_, 2 * Entries.sizeSum entries, by omega, surveys_below hfind fun name child hchild =>
      surveys_entry rfl (hsights.child hchild), ?_⟩
    intro path hpath
    obtain ⟨⟨name, child⟩, hentry, hmem⟩ := List.mem_flatMap.1 hpath
    obtain ⟨names, hnames, rfl⟩ := List.mem_map.1 hmem
    obtain ⟨hplace, hclear⟩ := List.mem_filter.1 hnames
    have hchild : Entries.find? name entries = some child := Entries.mem_sorted_iff.1 hentry
    refine ⟨name :: names, rfl, ?_, ?_⟩
    · rw [Node.at?, Node.entries, hchild]
      exact Node.mem_places_iff.1 hplace
    · intro front hfront hne
      obtain ⟨rest, rfl, hrest⟩ := (List.prefix_cons_iff.1 hfront).resolve_left hne
      exact Selection.clears_iff.1 hclear rest hrest

/-- A root that leads to something is surveyed with what the walk visits below it. -/
theorem surveys_root (selection : Selection)
    (hfind : tree.find .target root = .ok (place, node)) :
    ∃ paths, Surveys tree selection root [.root root] paths (2 * node.size) ∧
      ∀ path ∈ paths, ∃ names, path = root.under names ∧ Visited tree selection root names := by
  rcases reach_root_cases tree root with ⟨fault, _, hnone⟩ | ⟨_, _, kind, hsame, hreach, hkind⟩
  · rw [FileTree.reaches_eq_true_iff.2 ⟨place, node, hfind⟩] at hnone
    cases hnone
  cases hfind.symm.trans hsame
  obtain ⟨paths, budget, hbudget, hsurveys, hbelow⟩ := surveys_below_root selection hfind
  have hvisited (hroot : Passable tree selection root []) :
      ∀ path ∈ paths, ∃ names, path = root.under names ∧ Visited tree selection root names := by
    intro path hpath
    obtain ⟨names, hunder, hthere, hclear⟩ := hbelow path hpath
    refine ⟨names, hunder, ⟨place, node, hfind, hthere⟩, ?_⟩
    intro front hfront _
    by_cases hempty : front = []
    · rw [hempty]
      exact hroot
    · exact fun _ => hclear front hfront hempty
  have hnil : Visited tree selection root [] :=
    ⟨⟨place, node, hfind, rfl⟩, fun front hfront hne => absurd (List.prefix_nil.1 hfront) hne⟩
  cases hignored : selection.ignores root root with
  | false =>
    refine ⟨root :: paths, (surveys_reached hreach hignored hsurveys).mono (by omega), ?_⟩
    exact List.forall_mem_cons.2 ⟨⟨[], rfl, hnil⟩, hvisited fun _ => hignored⟩
  | true =>
    by_cases hpruned : kind = .folder ∨ node.kind ≠ .folder
    · have hnone : kind = .folder ∨
          (if node.kind = .folder then below tree root else []) = [] :=
        hpruned.imp_right fun hleaf => if_neg hleaf
      have hsize := node.size_pos
      exact ⟨[], (surveys_ignored hreach hignored hnone).mono (by omega), nofun⟩
    · -- Only the root itself is left out when it is a link to a folder.
      obtain ⟨hreal, hfolder⟩ := not_or.1 hpruned
      have hlink : tree.entryKind root = .ok .link := by
        refine hkind.resolve_left fun hsame => hreal ?_
        rw [hsame]
        exact Decidable.not_not.1 hfolder
      have hstep (pending : List Pending) (faults : List WalkFault) :
          step tree ⟨root, selection, .root root :: pending, faults⟩
            = some (none, ⟨root, selection,
                (if node.kind = .folder then below tree root else []) ++ pending, faults⟩) := by
        rw [step_of_ignores hreach hignored, if_neg hreal]
      have hown : [].filterMap (featureFile? tree selection) = none.toList := rfl
      refine ⟨paths, (Surveys.onward hstep hown hsurveys).mono (by omega), hvisited ?_⟩
      exact fun hroot => absurd hlink (hroot.resolve_left fun hne => hne rfl)

/-- A walk whose root leads to something yields files under paths that it visits only, and its
faults are such paths that are too long. -/
theorem drain_visited (selection : Selection)
    (hfind : tree.find .target root = .ok (place, node)) :
    ∃ (paths : List Path) (met : List WalkFault),
      (∀ path ∈ paths, ∃ names, path = root.under names ∧ Visited tree selection root names) ∧
      (∀ fault ∈ met, fault.path ∈ paths ∧ maxPathBytes ≤ fault.path.text.utf8ByteSize) ∧
      (start root selection).drain tree
        = (paths.filterMap (featureFile? tree selection), ⟨root, selection, [], met⟩) := by
  obtain ⟨paths, hsurveys, hvisited⟩ := surveys_root selection hfind
  have hsize : node.size ≤ tree.size :=
    Node.size_le_of_at? (FileTree.find_eq_ok_iff.1 hfind).2.2
  obtain ⟨met, hmet, hdrain⟩ := hsurveys.drain (by omega)
  exact ⟨paths, met, hvisited, hmet, hdrain⟩

/-- A walk whose root leads to nothing ends there. -/
theorem drain_of_not_reaches (selection : Selection) (h : tree.reaches root = false) :
    ∃ fault, (start root selection).drain tree = ([], ⟨root, selection, [], [fault]⟩) := by
  rcases reach_root_cases tree root with ⟨fault, hreach, _⟩ | ⟨place, node, _, hfind, _⟩
  · have hfirst : (start root selection).drainWithin tree 1
        = ([], ⟨root, selection, [], [fault]⟩) := by
      rw [drainWithin, start, step_of_error hreach]
      rfl
    have henough : 1 ≤ (start root selection).enough tree := Nat.succ_le_succ (Nat.zero_le _)
    exact ⟨fault, drain_of_drainWithin henough hfirst rfl⟩
  · rw [FileTree.reaches_eq_true_iff.2 ⟨place, node, hfind⟩] at h
    cases h

/-- Each file that a walk yields is found under names that the walk visits. -/
theorem exists_visited {file : FeatureFile}
    (h : file ∈ ((start root selection).drain tree).1) :
    ∃ names, Visited tree selection root names ∧
      featureFile? tree selection (root.under names) = some file := by
  cases hreaches : tree.reaches root with
  | false =>
    obtain ⟨fault, hdrain⟩ := drain_of_not_reaches selection hreaches
    rw [hdrain] at h
    cases h
  | true =>
    obtain ⟨place, node, hfind⟩ := FileTree.reaches_eq_true_iff.1 hreaches
    obtain ⟨paths, met, hvisited, _, hdrain⟩ := drain_visited selection hfind
    rw [hdrain] at h
    obtain ⟨path, hpath, hfile⟩ := List.mem_filterMap.1 h
    obtain ⟨names, rfl, hnames⟩ := hvisited path hpath
    exact ⟨names, hnames, hfile⟩

/-! ## How many paths are skipped -/

/-- A walk whose paths are short enough comes to its end, in one go and call by call.  It skips
its root when that leads to nothing, and then finds nothing; otherwise it skips nothing. -/
theorem drain_skipped (tree : FileTree) (selection : Selection) (root : Path)
    (hshort : ∀ names, Visited tree selection root names →
      (root.under names).text.utf8ByteSize < maxPathBytes) :
    ∃ files after, Drains tree (start root selection) files after ∧
      (start root selection).drain tree = (files, after) ∧
      after.skipped = (if tree.reaches root then 0 else 1) ∧
      (tree.reaches root = false → files = []) := by
  refine ⟨_, _, drains_drain tree root selection, rfl, ?_⟩
  cases hreaches : tree.reaches root with
  | false =>
    obtain ⟨fault, hdrain⟩ := drain_of_not_reaches selection hreaches
    rw [hdrain]
    exact ⟨rfl, fun _ => rfl⟩
  | true =>
    obtain ⟨place, node, hfind⟩ := FileTree.reaches_eq_true_iff.1 hreaches
    obtain ⟨paths, met, hvisited, hmet, hdrain⟩ := drain_visited selection hfind
    have hpaths : ∀ path ∈ paths, path.text.utf8ByteSize < maxPathBytes := by
      intro path hpath
      obtain ⟨names, rfl, hnames⟩ := hvisited path hpath
      exact hshort names hnames
    rw [hdrain, met_eq_nil hmet hpaths]
    exact ⟨rfl, nofun⟩

/-- What is in the folder of an example: a link that leads nowhere, a link to itself, a link back
to the folder, a folder to leave out, a file that is no text and one with another extension. -/
def tangledNode : Node :=
  .folder
    [(⟨['z', '.', 'f'], rfl⟩, .link ⟨"none"⟩),
      (⟨['y', '.', 'f'], rfl⟩, .link ⟨"y.f"⟩),
      (⟨['o'], rfl⟩, .link ⟨"."⟩),
      (⟨['n'], rfl⟩, .folder [(⟨['c', '.', 'f'], rfl⟩, .file "Then z".toUTF8)]),
      (⟨['b', '.', 'f'], rfl⟩, .file ⟨#[255]⟩),
      (⟨['a', '.', 't'], rfl⟩, .file "Given x".toUTF8)]

/-- The folder of the example, with a link to it and a link to itself beside it. -/
def tangledTree : FileTree :=
  ⟨[(⟨['g'], rfl⟩, tangledNode), (⟨['q'], rfl⟩, .link ⟨"g"⟩),
    (⟨['i'], rfl⟩, .link ⟨"i"⟩)], []⟩

/-- Every file of the example, less those of one folder and of one link. -/
def tangledSelection : Selection := ⟨["f"], [], [⟨"n"⟩, ⟨"i"⟩]⟩

theorem drain_skipped_tangled :
    (tangledTree.reaches ⟨"q"⟩ = true ∧
      ∃ files after, Drains tangledTree (start ⟨"q"⟩ tangledSelection) files after ∧
        files = [⟨⟨"/g/b.f"⟩, []⟩] ∧ after.skipped = 0) ∧
    tangledTree.reaches ⟨"i"⟩ = false ∧
      ∃ files after, Drains tangledTree (start ⟨"i"⟩ tangledSelection) files after ∧
        files = [] ∧ after.skipped = 1 := by
  have hlink : tangledTree.find .target ⟨"q"⟩ = .ok ([⟨['g'], rfl⟩], tangledNode) := by
    rfl
  have hpaths : ∀ names ∈ tangledNode.places,
      ((⟨"q"⟩ : Path).under names).text.utf8ByteSize < maxPathBytes := by
    decide
  have hshort (names : Place) (hnames : Visited tangledTree tangledSelection ⟨"q"⟩ names) :
      ((⟨"q"⟩ : Path).under names).text.utf8ByteSize < maxPathBytes := by
    obtain ⟨_, _, hfind, hthere⟩ := hnames.there
    cases hlink.symm.trans hfind
    exact hpaths names (Node.mem_places_iff.2 hthere)
  have hreaches : tangledTree.reaches ⟨"q"⟩ = true :=
    FileTree.reaches_eq_true_iff.2 ⟨_, _, hlink⟩
  have hloop : tangledTree.reaches ⟨"i"⟩ = false := by decide +kernel
  have hnowhere (names : Place) (hnames : Visited tangledTree tangledSelection ⟨"i"⟩ names) :
      ((⟨"i"⟩ : Path).under names).text.utf8ByteSize < maxPathBytes := by
    obtain ⟨_, _, hfind, _⟩ := hnames.there
    rw [FileTree.reaches_eq_true_iff.2 ⟨_, _, hfind⟩] at hloop
    cases hloop
  have hfiles : ((start ⟨"q"⟩ tangledSelection).drain tangledTree).1 = [⟨⟨"/g/b.f"⟩, []⟩] := by
    decide +kernel
  obtain ⟨files, after, hcalls, hdrain, hskipped, _⟩ := drain_skipped _ _ _ hshort
  obtain ⟨others, last, hend, _, hcounted, hnone⟩ := drain_skipped _ _ _ hnowhere
  rw [hdrain] at hfiles
  rw [hreaches] at hskipped
  rw [hloop] at hcounted
  exact ⟨⟨hreaches, files, after, hcalls, hfiles, hskipped⟩, hloop, others, last, hend,
    hnone hloop, hcounted⟩

end FeatureDigest.Walk
