import Mathlib.Data.List.Lex
import FeatureDigest.Proofs.FileTree.Preorder
import FeatureDigest.Proofs.Path.Pieces
import FeatureDigest.Scan.Walk

/-!
# The frontier of a walk

What a walk has still to reach stands for places below its root.  Each of them comes, with
all that is below it, before the next one.  A step keeps it so whatever the tree holds by
then (`step_lined`), and what it puts out comes before all that is pending after it.  This is
why a walk goes forward even when the tree changes from one step to the next.
-/

set_option autoImplicit false

namespace FeatureDigest

/-! ## Places in order -/

namespace Place

theorem Before.append {first second : Place} (h : first.Before second) (more : Place) :
    first.Before (second ++ more) :=
  List.Lex.append_right _ more h

theorem not_before_self (place : Place) : ¬ place.Before place := by
  intro h
  induction place with
  | nil => cases h
  | cons name place ih =>
    cases h with
    | cons h => exact ih h
    | rel h => exact List.lt_irrefl _ h

theorem before_append_cons (place : Place) (name : FileName) (names : Place) :
    place.Before (place ++ name :: names) := by
  have h : Before [] (name :: names) := .nil
  simpa [Before] using List.Lex.append_left _ h place

/-- All places below the first one come before the second one. -/
def Precedes (first second : Place) : Prop := ∀ more, Before (first ++ more) second

theorem Precedes.before {first second : Place} (h : first.Precedes second) :
    first.Before second := by
  simpa using h []

theorem Precedes.append {first second : Place} (h : first.Precedes second) (names : Place) :
    (first ++ names).Precedes second := by
  intro more
  rw [List.append_assoc]
  exact h _

theorem precedes_of_lt {name other : FileName} (h : name < other) (place : Place) :
    (place ++ [name]).Precedes (place ++ [other]) := by
  intro more
  have hnames : Before ([name] ++ more) [other] := .rel (FileName.lt_iff_bytes_lt.1 h)
  rw [List.append_assoc]
  exact List.Lex.append_left _ hnames place

/-- The places right below the first one of some places may stand for it. -/
theorem pairwise_precedes_below {place : Place} {rest : List Place} {names : List FileName}
    (hordered : (place :: rest).Pairwise Precedes) (hnames : names.Pairwise (· < ·)) :
    ((names.map fun name => place ++ [name]) ++ rest).Pairwise Precedes := by
  obtain ⟨hfirst, hrest⟩ := List.pairwise_cons.1 hordered
  refine List.pairwise_append.2 ⟨?_, hrest, ?_⟩
  · rw [List.pairwise_map]
    exact hnames.imp fun hlt => precedes_of_lt hlt place
  · intro below hbelow other hother
    obtain ⟨name, _, rfl⟩ := List.mem_map.1 hbelow
    exact (hfirst other hother).append [name]

end Place

namespace Path

/-- Different names lead to different paths. -/
theorem under_injective (path : Path) {names other : Place}
    (h : path.under names = path.under other) : names = other := by
  have hnamed := congrArg named h
  rw [named_under, named_under] at hnamed
  have hinjective : Function.Injective FileName.piece := fun _ _ => FileName.piece_injective
  exact List.map_injective_iff.2 hinjective (List.append_cancel_left hnamed)

end Path

/-! ## What is pending -/

/-- The path that a pending item is reached under, if it can be reached. -/
def Pending.path? : Pending → Option Path
  | .root path => some path
  | .entry path _ => some path
  | .fault _ => none

namespace Walk

variable {tree : FileTree} {selection : Selection} {root : Path} {walk after : Walk}
  {places : List Place} {found : Option FeatureFile}

/-- What is next below a path are entries in the order of their names, or nothing that can be
reached. -/
theorem exists_below (tree : FileTree) (path : Path) :
    ∃ names : List FileName, names.Pairwise (· < ·) ∧
      (below tree path).filterMap Pending.path?
        = names.map fun name => path.join ⟨String.ofList name.piece⟩ := by
  unfold below FileTree.list
  split
  · rename_i listed hlist
    split at hlist
    · cases hlist
    · rename_i entries _
      cases hlist
      refine ⟨(Entries.listing entries).map Prod.fst, ?_, ?_⟩
      · exact List.pairwise_map.2 (Entries.pairwise_sorted _)
      · rw [List.filterMap_map, List.map_map]
        exact congrFun List.filterMap_eq_map _
    · cases hlist
  · exact ⟨[], .nil, rfl⟩

theorem mem_below {path : Path} {item : Pending} (h : item ∈ below tree path) :
    (∃ (name : FileName) (kind : Node.Kind),
        item = .entry (path.join ⟨String.ofList name.piece⟩) kind) ∨
      ∃ fault, item = .fault fault := by
  unfold below at h
  split at h
  · obtain ⟨entry, _, rfl⟩ := List.mem_map.1 h
    exact Or.inl ⟨entry.1, entry.2, rfl⟩
  · exact Or.inr ⟨_, List.mem_singleton.1 h⟩

theorem reach_ok {item : Pending} {reached : Reached} (h : reach tree item = .ok reached) :
    item.path? = some reached.path ∧
      (reached.below = [] ∨ reached.below = below tree reached.path) := by
  have hentry (path : Path) (kind : Node.Kind) :
      some path = some (reachEntry tree path kind).path ∧
        ((reachEntry tree path kind).below = [] ∨
          (reachEntry tree path kind).below
            = below tree (reachEntry tree path kind).path) := by
    cases kind with
    | file => exact ⟨rfl, Or.inl rfl⟩
    | folder => exact ⟨rfl, Or.inr rfl⟩
    | link => exact ⟨rfl, Or.inl rfl⟩
  cases item with
  | root path =>
    rw [reach, reachRoot] at h
    split at h
    · cases h
    · split at h
      · cases h
      · cases h
        exact ⟨rfl, Or.inr rfl⟩
      · cases h
        exact ⟨rfl, Or.inl rfl⟩
    · rename_i kind _ _
      cases h
      exact hentry path kind
  | entry path kind =>
    cases h
    exact hentry path kind
  | fault fault => cases h

theorem mem_below_of_reach {item other : Pending} {reached : Reached}
    (hreach : reach tree item = .ok reached) (h : other ∈ reached.below) :
    other ∈ below tree reached.path := by
  rcases (reach_ok hreach).2 with hnone | hbelow
  · rw [hnone] at h
    cases h
  · rwa [hbelow] at h

/-- All that a step does: the first pending item gives way to nothing, or to what is next
below its path; and what is put out stands for this path, which is not left out. -/
theorem step_cases (h : walk.step tree = some (found, after)) :
    ∃ item pending next met, walk.pending = item :: pending ∧
      after = ⟨walk.root, walk.selection, next ++ pending, walk.faults ++ met⟩ ∧
      (next = [] ∨ ∃ path, item.path? = some path ∧ next = below tree path) ∧
      ∀ file, found = some file → ∃ path, item.path? = some path ∧
        walk.selection.ignores walk.root path = false ∧
        featureFile? tree walk.selection path = some file := by
  rw [step] at h
  split at h
  · cases h
  · rename_i item pending hpending
    split at h
    · rename_i fault _
      cases h
      exact ⟨item, pending, [], [fault], hpending, rfl, Or.inl rfl, nofun⟩
    · rename_i reached hreach
      obtain ⟨hpath, hbelow⟩ := reach_ok hreach
      have hnext : reached.below = [] ∨
          ∃ path, item.path? = some path ∧ reached.below = below tree path :=
        hbelow.imp_right fun h => ⟨reached.path, hpath, h⟩
      cases hignores : walk.selection.ignores walk.root reached.path with
      | true =>
        rw [hignores, if_pos rfl] at h
        cases h
        refine ⟨item, pending, if reached.kind = .folder then [] else reached.below, [],
          hpending, by rw [List.append_nil], ?_, nofun⟩
        split
        · exact Or.inl rfl
        · exact hnext
      | false =>
        rw [hignores, if_neg Bool.false_ne_true] at h
        cases h
        refine ⟨item, pending, reached.below, [], hpending, by rw [List.append_nil], hnext, ?_⟩
        intro file hfile
        exact ⟨reached.path, hpath, hignores, hfile⟩

/-! ## The order of what is pending -/

/-- What a walk has still to reach stands for some places below the root, in order. -/
structure Lined (root : Path) (selection : Selection) (walk : Walk) (places : List Place) :
    Prop where
  sameRoot : walk.root = root
  sameSelection : walk.selection = selection
  stands : walk.pending.filterMap Pending.path? = places.map root.under
  ordered : places.Pairwise Place.Precedes

theorem lined_start (root : Path) (selection : Selection) :
    Lined root selection (start root selection) [[]] :=
  ⟨rfl, rfl, rfl, List.pairwise_singleton ..⟩

/-- A fault stands for no place, and nothing is below it. -/
theorem Lined.fault (hlined : Lined root selection walk places) {item : Pending}
    {pending : List Pending} (hpending : walk.pending = item :: pending)
    (hpath : item.path? = none) (met : List WalkFault) :
    Lined root selection ⟨walk.root, walk.selection, pending, walk.faults ++ met⟩ places := by
  have hstands := hlined.stands
  rw [hpending, List.filterMap_cons_none hpath] at hstands
  exact ⟨hlined.sameRoot, hlined.sameSelection, hstands, hlined.ordered⟩

/-- An item gives way to entries below its place, in the order of their names. -/
theorem Lined.below {place : Place} {rest : List Place}
    (hlined : Lined root selection walk (place :: rest)) {pending next : List Pending}
    {names : List FileName} (hpending : pending.filterMap Pending.path? = rest.map root.under)
    (hnames : names.Pairwise (· < ·))
    (hnext : next.filterMap Pending.path?
      = names.map fun name => (root.under place).join ⟨String.ofList name.piece⟩)
    (met : List WalkFault) :
    Lined root selection ⟨walk.root, walk.selection, next ++ pending, walk.faults ++ met⟩
      ((names.map fun name => place ++ [name]) ++ rest) := by
  refine ⟨hlined.sameRoot, hlined.sameSelection, ?_,
    Place.pairwise_precedes_below hlined.ordered hnames⟩
  have hplaces : (names.map fun name => place ++ [name]).map root.under
      = names.map fun name => (root.under place).join ⟨String.ofList name.piece⟩ := by
    rw [List.map_map]
    apply List.map_congr_left
    intro name _
    exact root.under_append place [name]
  rw [List.filterMap_append, hnext, hpending, List.map_append, hplaces]

/-- A step keeps what is pending in order, below what was pending before.  What it puts out
comes before all that is pending then. -/
theorem step_lined (hlined : Lined root selection walk places)
    (hstep : walk.step tree = some (found, after)) :
    ∃ onward, Lined root selection after onward ∧
      (∀ place ∈ onward, ∃ front ∈ places, front <+: place) ∧
      ∀ file, found = some file → ∃ item pending, ∃ place ∈ places,
        walk.pending = item :: pending ∧ item.path? = some (root.under place) ∧
          selection.ignores root (root.under place) = false ∧
          featureFile? tree selection (root.under place) = some file ∧
          ∀ later ∈ onward, place.Before later := by
  obtain ⟨item, pending, next, met, hpending, rfl, hnext, hfound⟩ := step_cases hstep
  cases hpath : item.path? with
  | none =>
    rw [hpath] at hnext hfound
    have hnone : next = [] := hnext.resolve_right fun ⟨_, hsome, _⟩ => nomatch hsome
    rw [hnone, List.nil_append]
    refine ⟨places, hlined.fault hpending hpath met, ?_, ?_⟩
    · intro place hplace
      exact ⟨place, hplace, List.prefix_rfl⟩
    · intro file hfile
      obtain ⟨_, hsome, _⟩ := hfound file hfile
      cases hsome
  | some path =>
    have hstands := hlined.stands
    rw [hpending, List.filterMap_cons_some hpath] at hstands
    obtain ⟨place, rest, rfl, rfl, hrest⟩ := List.map_eq_cons_iff.1 hstands.symm
    obtain ⟨names, hnames, hbelow⟩ : ∃ names : List FileName, names.Pairwise (· < ·) ∧
        next.filterMap Pending.path?
          = names.map fun name => (root.under place).join ⟨String.ofList name.piece⟩ := by
      rcases hnext with rfl | ⟨path, hsome, rfl⟩
      · exact ⟨[], .nil, rfl⟩
      · cases hpath.symm.trans hsome
        exact exists_below tree (root.under place)
    have hfirst := (List.pairwise_cons.1 hlined.ordered).1
    refine ⟨_, hlined.below hrest.symm hnames hbelow met, ?_, ?_⟩
    · intro later hlater
      rcases List.mem_append.1 hlater with hlater | hlater
      · obtain ⟨name, _, rfl⟩ := List.mem_map.1 hlater
        exact ⟨place, List.mem_cons_self, List.prefix_append place [name]⟩
      · exact ⟨later, List.mem_cons_of_mem place hlater, List.prefix_rfl⟩
    · intro file hfile
      obtain ⟨path, hsome, hclear, hyields⟩ := hfound file hfile
      cases hpath.symm.trans hsome
      rw [hlined.sameRoot, hlined.sameSelection] at hclear
      rw [hlined.sameSelection] at hyields
      refine ⟨item, pending, place, List.mem_cons_self, hpending, hpath, hclear, hyields, ?_⟩
      intro later hlater
      rcases List.mem_append.1 hlater with hlater | hlater
      · obtain ⟨name, _, rfl⟩ := List.mem_map.1 hlater
        exact place.before_append_cons name []
      · exact (hfirst later hlater).before

end Walk

end FeatureDigest
