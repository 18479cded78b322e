import FeatureDigest.Proofs.Scan.Literal
import FeatureDigest.Proofs.Scan.Narrowing

/-!
# Pruning

A walk does not enter a folder that is left out.  Where nothing is left out by a pattern, this
only saves steps: the walk finds what the walk without ignored paths finds, less the paths that
are left out (`Walk.trace_eq_filter`).  With patterns, whose matches need not match below them,
pruning hides the folders below the root that are left out, and the root unless it is a link
(`Walk.trace_clear`): a root that is a link is entered although a pattern leaves it out
(`Walk.drain_link`).
-/

set_option autoImplicit false

namespace FeatureDigest

/-- What is below a path that is left out without patterns is left out itself. -/
theorem Selection.Shut.ignores_literal {selection : Selection} {root : Path} {names : Place}
    (h : selection.literal.Shut root names) :
    selection.literal.ignores root (root.under names) = true := by
  obtain ⟨front, hfront, hignored⟩ := h
  exact ignores_literal_of_prefix hfront hignored

namespace Walk

variable {tree : FileTree} {selection : Selection} {root : Path}

/-! ## Pruning without patterns -/

/-- Without patterns, a walk that prunes finds what the walk without ignored paths finds, less
what stands for a path that is left out, in the same order.  What walks find stands for paths
below their root, and is what they yield. -/
theorem trace_eq_filter (tree : FileTree) (root : Path) (extensions : List String)
    (paths : List Path) :
    (start root ⟨extensions, [], paths⟩).trace tree
        = ((start root ⟨extensions, [], []⟩).trace tree).filter
            (fun seen => !Selection.ignores ⟨extensions, [], paths⟩ root seen.1) ∧
      (∀ seen ∈ (start root ⟨extensions, [], []⟩).trace tree,
        (∃ names, seen.1 = root.under names) ∧
          featureFile? tree ⟨extensions, [], []⟩ seen.1 = some seen.2) ∧
      ∀ ignored : List Path,
        ((start root ⟨extensions, [], ignored⟩).drain tree).1
            = ((start root ⟨extensions, [], ignored⟩).trace tree).map Prod.snd := by
  refine ⟨?_, trace_under tree root _, fun ignored => drain_eq_trace tree _⟩
  have hnarrower := Selection.narrower_all ⟨extensions, [], paths⟩
  have hdescends (names : Place)
      (hshut : (Selection.literal ⟨extensions, [], paths⟩).Shut root names) :
      Selection.ignores ⟨extensions, [], paths⟩ root (root.under names) = true :=
    hshut.ignores_literal
  exact trace_eq_filter_of_descends hnarrower rfl hdescends

/-! ## Pruning with patterns -/

/-- Names below the root are not left out, unless they are none and the root is a link. -/
def Passable (tree : FileTree) (selection : Selection) (root : Path) (names : Place) : Prop :=
  names ≠ [] ∨ tree.entryKind root ≠ .ok .link →
    selection.ignores root (root.under names) = false

/-- Pending items that a walk has come to through passable names only. -/
inductive Approached (tree : FileTree) (selection : Selection) (root : Path) : Pending → Prop
  | root : Approached tree selection root (.root root)
  | entry {names : Place} {kind : Node.Kind}
      (passed : ∀ front, front <+: names → front ≠ names → Passable tree selection root front) :
      Approached tree selection root (.entry (root.under names) kind)
  | fault {fault : WalkFault} : Approached tree selection root (.fault fault)

/-- What is reached is a folder, or nothing is below it, unless it is the root and a link. -/
theorem reach_kind {item : Pending} {reached : Reached} (h : reach tree item = .ok reached) :
    reached.kind = .folder ∨ reached.below = [] ∨
      ∃ path, item = .root path ∧ tree.entryKind path = .ok .link := by
  have hentry (path : Path) (kind : Node.Kind) :
      (reachEntry tree path kind).kind = .folder ∨ (reachEntry tree path kind).below = [] := by
    cases kind with
    | folder => exact Or.inl rfl
    | file => exact Or.inr rfl
    | link => exact Or.inr rfl
  cases item with
  | root path =>
    rw [reach, reachRoot] at h
    split at h
    · cases h
    · rename_i hlink
      exact Or.inr (Or.inr ⟨path, rfl, hlink⟩)
    · cases h
      exact (hentry path _).imp_right Or.inl
  | entry path kind =>
    cases h
    exact (hentry path kind).imp_right Or.inl
  | fault fault => cases h

theorem Approached.names {item : Pending} {path : Path}
    (h : Approached tree selection root item) (hpath : item.path? = some path) :
    ∃ names, path = root.under names ∧
      (∀ front, front <+: names → front ≠ names → Passable tree selection root front) ∧
      ∀ other, item = .root other → names = [] ∧ other = root := by
  cases h with
  | root =>
    cases hpath
    refine ⟨[], rfl, fun front hfront hne => absurd (List.prefix_nil.1 hfront) hne, ?_⟩
    rintro other ⟨⟩
    exact ⟨rfl, rfl⟩
  | entry passed =>
    cases hpath
    exact ⟨_, rfl, passed, nofun⟩
  | fault => cases hpath

/-- What is below passable names was approached. -/
theorem approached_below {names : Place}
    (h : ∀ front, front <+: names → Passable tree selection root front) :
    ∀ item ∈ below tree (root.under names), Approached tree selection root item := by
  intro item hitem
  rcases mem_below hitem with ⟨name, kind, rfl⟩ | ⟨fault, rfl⟩
  · have hunder : (root.under names).join ⟨String.ofList name.piece⟩
        = root.under (names ++ [name]) := (root.under_append names [name]).symm
    rw [hunder]
    refine .entry fun front hfront hne => h front ?_
    exact (List.prefix_concat_iff.1 hfront).resolve_left hne
  · exact .fault

/-- What is next below an item that is left out was approached, unless it is passed over. -/
theorem Approached.next_of_ignores {item : Pending} {reached : Reached}
    (h : Approached tree selection root item) (hreach : reach tree item = .ok reached) :
    ∀ other ∈ (if reached.kind = .folder then [] else reached.below),
      Approached tree selection root other := by
  intro other hother
  rcases reach_kind hreach with hfolder | hnone | ⟨path, hitem, hlink⟩
  · rw [if_pos hfolder] at hother
    cases hother
  · rw [hnone, ite_self] at hother
    cases hother
  · -- A root that is a link is passable, and no other names are in front of what is below it.
    obtain ⟨names, hunder, _, hroot⟩ := h.names (reach_ok hreach).1
    obtain ⟨rfl, rfl⟩ := hroot path hitem
    have hpassable : ∀ front, front <+: [] → Passable tree selection path front := by
      intro front hfront hreal
      exact absurd (List.prefix_nil.1 hfront) (hreal.resolve_right fun hne => hne hlink)
    split at hother
    · cases hother
    · exact approached_below hpassable other (hunder ▸ mem_below_of_reach hreach hother)

/-- An item that is not left out was reached through passable names only, and what is next below
it was approached. -/
theorem Approached.next_of_clear {item : Pending} {reached : Reached}
    (h : Approached tree selection root item) (hreach : reach tree item = .ok reached)
    (hclear : selection.ignores root reached.path = false) :
    (∃ names, reached.path = root.under names ∧
        ∀ front, front <+: names → Passable tree selection root front) ∧
      ∀ other ∈ reached.below, Approached tree selection root other := by
  obtain ⟨names, hunder, hpassed, _⟩ := h.names (reach_ok hreach).1
  have hpassable : ∀ front, front <+: names → Passable tree selection root front := by
    intro front hfront
    by_cases heq : front = names
    · intro _
      rw [heq, ← hunder]
      exact hclear
    · exact hpassed front hfront heq
  refine ⟨⟨names, hunder, hpassable⟩, fun other hother => ?_⟩
  exact approached_below hpassable other (hunder ▸ mem_below_of_reach hreach hother)

/-- A walk approaches what it has pending. -/
structure Approaches (tree : FileTree) (selection : Selection) (root : Path) (walk : Walk) :
    Prop where
  sameRoot : walk.root = root
  sameSelection : walk.selection = selection
  approached : ∀ item ∈ walk.pending, Approached tree selection root item

/-- A step approaches what is pending after it, and finds what passable names lead to. -/
theorem Approaches.step {walk after : Walk} {found : Option FeatureFile}
    (h : Approaches tree selection root walk) (hstep : walk.step tree = some (found, after)) :
    Approaches tree selection root after ∧
      ∀ path file, walk.sighting? found = some (path, file) →
        ∃ names, path = root.under names ∧ selection.ignores root path = false ∧
          ∀ front, front <+: names → Passable tree selection root front := by
  obtain ⟨top, rules, pending, faults⟩ := walk
  obtain ⟨rfl, rfl, happroached⟩ := h
  cases pending with
  | nil => cases hstep
  | cons item pending =>
    obtain ⟨hitem, hpending⟩ := List.forall_mem_cons.1 happroached
    cases hreach : reach tree item with
    | error fault =>
      rw [step_of_error hreach] at hstep
      cases hstep
      refine ⟨⟨rfl, rfl, hpending⟩, fun path file hsighting => ?_⟩
      rw [sighting?_none] at hsighting
      cases hsighting
    | ok reached =>
      cases hignores : rules.ignores top reached.path with
      | true =>
        rw [step_of_ignores hreach hignores] at hstep
        cases hstep
        have hnext := hitem.next_of_ignores hreach
        refine ⟨⟨rfl, rfl, List.forall_mem_append.2 ⟨hnext, hpending⟩⟩, ?_⟩
        intro path file hsighting
        rw [sighting?_none] at hsighting
        cases hsighting
      | false =>
        rw [step_of_clear hreach hignores] at hstep
        cases hstep
        obtain ⟨⟨names, hunder, hpassable⟩, hnext⟩ := hitem.next_of_clear hreach hignores
        refine ⟨⟨rfl, rfl, List.forall_mem_append.2 ⟨hnext, hpending⟩⟩, ?_⟩
        intro path file hsighting
        rw [sighting?_of_reach rfl hreach] at hsighting
        obtain ⟨_, _, hseen⟩ := Option.map_eq_some_iff.1 hsighting
        cases hseen
        exact ⟨names, hunder, hignores, hpassable⟩

/-- What a walk finds stands for names below its root such that neither the names nor any in
front of them are left out, except that the root may be a link that a pattern leaves out. -/
theorem trace_clear (tree : FileTree) (root : Path) (selection : Selection) :
    ∀ seen ∈ (start root selection).trace tree, ∃ names, seen.1 = root.under names ∧
      ∀ front, front <+: names →
        selection.literal.ignores root (root.under front) = false ∧
          Passable tree selection root front := by
  have hstart : Approaches tree selection root (start root selection) := by
    refine ⟨rfl, rfl, fun item hitem => ?_⟩
    rw [List.mem_singleton.1 hitem]
    exact .root
  refine trace_of_step (Approaches tree selection root)
    (fun path _ => ∃ names, path = root.under names ∧
      ∀ front, front <+: names →
        selection.literal.ignores root (root.under front) = false ∧
          Passable tree selection root front)
    (fun hwalk hstep => (hwalk.step hstep).1) ?_ hstart
  intro walk found after path file hwalk hstep hsighting
  obtain ⟨names, rfl, hclear, hpassable⟩ := (hwalk.step hstep).2 path file hsighting
  refine ⟨names, rfl, fun front hfront => ⟨?_, hpassable front hfront⟩⟩
  -- An ignored path would leave out the names as well.
  cases hfront' : selection.literal.ignores root (root.under front) with
  | false => rfl
  | true =>
    have hbarred := Selection.ignores_literal_of_prefix hfront hfront'
    rw [Selection.ignores_literal_of_clear hclear] at hbarred
    cases hbarred

/-- No file that a walk yields is below a folder that is left out, where the root counts unless
it is a link that only a pattern leaves out; so a root that is left out otherwise yields
nothing. -/
theorem hides_below (tree : FileTree) (root : Path) (selection : Selection) :
    ((start root selection).drain tree).1
        = ((start root selection).trace tree).map Prod.snd ∧
      (∀ seen ∈ (start root selection).trace tree, ∃ names, seen.1 = root.under names ∧
        featureFile? tree selection seen.1 = some seen.2 ∧
        ∀ front, front <+: names →
          selection.literal.ignores root (root.under front) = false ∧
            (front ≠ [] ∨ tree.entryKind root ≠ .ok .link →
              selection.ignores root (root.under front) = false)) ∧
      (selection.ignores root root = true →
        tree.entryKind root ≠ .ok .link ∨ selection.literal.ignores root root = true →
          ((start root selection).drain tree).1 = []) := by
  have hdrain := drain_eq_trace tree (start root selection)
  have hclear := trace_clear tree root selection
  refine ⟨hdrain, ?_, ?_⟩
  · intro seen hseen
    obtain ⟨names, hunder, hfronts⟩ := hclear seen hseen
    exact ⟨names, hunder, (trace_under tree root selection seen hseen).2, hfronts⟩
  · intro hignored hreal
    have hnone : (start root selection).trace tree = [] := by
      apply List.eq_nil_iff_forall_not_mem.2
      intro seen hseen
      obtain ⟨names, _, hfronts⟩ := hclear seen hseen
      obtain ⟨hliteral, hpassable⟩ := hfronts [] List.nil_prefix
      rw [Path.under_nil] at hliteral
      rcases hreal with hlink | hbarred
      · have hroot := hpassable (Or.inr hlink)
        rw [Path.under_nil, hignored] at hroot
        cases hroot
      · rw [hliteral] at hbarred
        cases hbarred
    rw [hdrain, hnone, List.map_nil]

/-- A folder with a file in it, and a link to the folder. -/
def linkedTree : FileTree :=
  ⟨[(⟨['r'], rfl⟩, .folder [(⟨['a', '.', 'f'], rfl⟩, .file "Given x".toUTF8)]),
    (⟨['k'], rfl⟩, .link ⟨"r"⟩)], []⟩

/-- Every file of the example, less what has a name of one letter. -/
def unlettered : Selection := Selection.ofConfig ⟨"./", ["f"], ["?"], .text⟩

theorem hides_below_folder :
    (unlettered.ignores ⟨"r"⟩ ⟨"r"⟩ = true ∧ linkedTree.entryKind ⟨"r"⟩ ≠ .ok .link) ∧
      ((start ⟨"r"⟩ unlettered).drain linkedTree).1 = [] := by
  have hignored : unlettered.ignores ⟨"r"⟩ ⟨"r"⟩ = true := by decide +kernel
  have hreal : linkedTree.entryKind ⟨"r"⟩ ≠ .ok .link := by decide +kernel
  exact ⟨⟨hignored, hreal⟩,
    (hides_below linkedTree ⟨"r"⟩ unlettered).2.2 hignored (Or.inl hreal)⟩

/-- A root that is a link to a folder is left out, and yet the file in the folder is
yielded. -/
theorem drain_link :
    linkedTree.targetKind ⟨"k"⟩ = .ok .folder ∧ unlettered.ignores ⟨"k"⟩ ⟨"k"⟩ = true ∧
      ((start ⟨"k"⟩ unlettered).drain linkedTree).1 = [⟨⟨"/r/a.f"⟩, ["Given x"]⟩] := by
  refine ⟨by decide +kernel, by decide +kernel, by decide +kernel⟩

end Walk

end FeatureDigest
