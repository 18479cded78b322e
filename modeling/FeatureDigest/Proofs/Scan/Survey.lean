import FeatureDigest.Proofs.FileTree.Following
import FeatureDigest.Proofs.FileTree.Preorder
import FeatureDigest.Scan.Walk

/-!
# What a walk surveys

A walk keeps a list of what it has still to reach.  Reaching an entry and all below it
takes a bounded number of steps, puts out what the clear paths below the entry stand for,
and leaves the rest of the list as it was (`surveys_entry`).  A path is clear when nothing
on the way to it is left out.  So a walk that nothing disturbs comes to its end and yields
what the clear paths below its root stand for (`drain_start`).
-/

set_option autoImplicit false

namespace FeatureDigest

/-! ## Clear paths -/

namespace Selection

/-- Neither a path nor one that names lead to from it is left out. -/
def clears (selection : Selection) (root path : Path) : Place → Bool
  | [] => !selection.ignores root path
  | name :: names =>
    !selection.ignores root path
      && selection.clears root (path.join ⟨String.ofList name.piece⟩) names

theorem clears_iff {selection : Selection} {root path : Path} {names : Place} :
    selection.clears root path names = true
      ↔ ∀ front, front <+: names → selection.ignores root (path.under front) = false := by
  induction names generalizing path with
  | nil =>
    rw [clears, Bool.not_eq_true']
    constructor
    · intro h front hfront
      rw [List.prefix_nil.1 hfront]
      exact h
    · intro h
      exact h [] List.prefix_rfl
  | cons name names ih =>
    rw [clears, Bool.and_eq_true, Bool.not_eq_true', ih]
    constructor
    · rintro ⟨hpath, hrest⟩ front hfront
      rcases List.prefix_cons_iff.1 hfront with rfl | ⟨rest, rfl, hprefix⟩
      · exact hpath
      · exact hrest rest hprefix
    · intro h
      refine ⟨h [] List.nil_prefix, ?_⟩
      intro front hfront
      exact h (name :: front) (List.cons_prefix_cons.2 ⟨rfl, hfront⟩)

/-- The clear paths of a node under a path and of what is below the node. -/
def clearPaths (selection : Selection) (root path : Path) (node : Node) : List Path :=
  (node.places.filter fun names => selection.clears root path names).map path.under

theorem clearPaths_of_ignores {selection : Selection} {root path : Path}
    (h : selection.ignores root path = true) (node : Node) :
    selection.clearPaths root path node = [] := by
  have hnone (names : Place) : selection.clears root path names = false := by
    cases names <;> simp [clears, h]
  simp [clearPaths, hnone]

theorem clearPaths_of_ne_folder {selection : Selection} {root path : Path} {node : Node}
    (h : selection.ignores root path = false) (hkind : node.kind ≠ .folder) :
    selection.clearPaths root path node = [path] := by
  have hplaces : node.places = [[]] := by
    cases node with
    | file content => rfl
    | link target => rfl
    | folder entries => exact absurd rfl hkind
  simp [clearPaths, hplaces, clears, h]

theorem clearPaths_folder {selection : Selection} {root path : Path}
    (h : selection.ignores root path = false) (entries : Entries) :
    selection.clearPaths root path (.folder entries) =
      path :: (Entries.sorted entries).flatMap fun entry =>
        selection.clearPaths root (path.join ⟨String.ofList entry.1.piece⟩) entry.2 := by
  have hself : selection.clears root path [] = true := by rw [clears, h]; rfl
  unfold clearPaths
  rw [Node.places_folder, List.filter_cons, if_pos hself, List.map_cons, Path.under_nil,
    List.filter_flatMap, List.map_flatMap]
  congr 2
  funext entry
  have hrest : (fun names => selection.clears root path names) ∘ (entry.1 :: ·)
      = selection.clears root (path.join ⟨String.ofList entry.1.piece⟩) := by
    funext names
    simp [clears, h]
  rw [List.filter_map, List.map_map, hrest]
  rfl

theorem exists_under_of_mem_clearPaths {selection : Selection} {root path other : Path}
    {node : Node} (h : other ∈ selection.clearPaths root path node) :
    ∃ names, other = path.under names := by
  obtain ⟨names, _, rfl⟩ := List.mem_map.1 h
  exact ⟨names, rfl⟩

end Selection

namespace Walk

/-! ## Steps -/

/-- So many steps put out some files and lead to another walk. -/
def Leads (tree : FileTree) (steps : Nat) (walk : Walk) (files : List FeatureFile)
    (after : Walk) : Prop :=
  ∀ fuel, walk.drainWithin tree (steps + fuel)
    = (files ++ (after.drainWithin tree fuel).1, (after.drainWithin tree fuel).2)

theorem Leads.refl (tree : FileTree) (walk : Walk) : Leads tree 0 walk [] walk := by
  intro fuel
  rw [Nat.zero_add, List.nil_append]

theorem Leads.trans {tree : FileTree} {first second : Nat} {walk middle after : Walk}
    {files more : List FeatureFile} (hfirst : Leads tree first walk files middle)
    (hsecond : Leads tree second middle more after) :
    Leads tree (first + second) walk (files ++ more) after := by
  intro fuel
  rw [Nat.add_assoc, hfirst, hsecond, List.append_assoc]

theorem Leads.step {tree : FileTree} {walk after : Walk} {found : Option FeatureFile}
    (h : walk.step tree = some (found, after)) : Leads tree 1 walk found.toList after := by
  intro fuel
  rw [Nat.add_comm, drainWithin, h]

theorem step_of_pending_nil {tree : FileTree} {walk : Walk} (h : walk.pending = []) :
    walk.step tree = none := by
  rw [step, h]

theorem step_of_error {tree : FileTree} {selection : Selection} {root : Path} {item : Pending}
    {fault : WalkFault} (hreach : reach tree item = .error fault) (pending : List Pending)
    (faults : List WalkFault) :
    step tree ⟨root, selection, item :: pending, faults⟩
      = some (none, ⟨root, selection, pending, faults ++ [fault]⟩) := by
  simp only [step, hreach]

theorem step_of_ignores {tree : FileTree} {selection : Selection} {root : Path} {item : Pending}
    {reached : Reached} (hreach : reach tree item = .ok reached)
    (hignores : selection.ignores root reached.path = true) (pending : List Pending)
    (faults : List WalkFault) :
    step tree ⟨root, selection, item :: pending, faults⟩
      = some (none, ⟨root, selection,
          (if reached.kind = .folder then [] else reached.below) ++ pending, faults⟩) := by
  simp only [step, hreach, hignores, if_true]

theorem step_of_clear {tree : FileTree} {selection : Selection} {root : Path} {item : Pending}
    {reached : Reached} (hreach : reach tree item = .ok reached)
    (hclear : selection.ignores root reached.path = false) (pending : List Pending)
    (faults : List WalkFault) :
    step tree ⟨root, selection, item :: pending, faults⟩
      = some (featureFile? tree selection reached.path,
          ⟨root, selection, reached.below ++ pending, faults⟩) := by
  simp only [step, hreach, hclear, Bool.false_eq_true, if_false]

/-- Pending items are reached within a budget: the paths surveyed put out the files they
stand for, and the faults met are those of surveyed paths that are too long. -/
def Surveys (tree : FileTree) (selection : Selection) (root : Path) (items : List Pending)
    (paths : List Path) (budget : Nat) : Prop :=
  ∃ steps met, steps ≤ budget ∧
    (∀ fault ∈ met, fault.path ∈ paths ∧ maxPathBytes ≤ fault.path.text.utf8ByteSize) ∧
    ∀ pending faults, Leads tree steps ⟨root, selection, items ++ pending, faults⟩
      (paths.filterMap (featureFile? tree selection))
      ⟨root, selection, pending, faults ++ met⟩

section Surveys

variable {tree : FileTree} {selection : Selection} {root : Path}

theorem Surveys.nil : Surveys tree selection root [] [] 0 := by
  refine ⟨0, [], Nat.le_refl 0, by simp, ?_⟩
  intro pending faults
  rw [List.append_nil]
  exact Leads.refl tree _

theorem Surveys.append {items more : List Pending} {paths others : List Path}
    {budget second : Nat} (hitems : Surveys tree selection root items paths budget)
    (hmore : Surveys tree selection root more others second) :
    Surveys tree selection root (items ++ more) (paths ++ others) (budget + second) := by
  obtain ⟨steps, met, hsteps, hmet, hleads⟩ := hitems
  obtain ⟨ahead, further, hahead, hfurther, honward⟩ := hmore
  refine ⟨steps + ahead, met ++ further, Nat.add_le_add hsteps hahead, ?_, ?_⟩
  · intro fault hfault
    rcases List.mem_append.1 hfault with hfault | hfault
    · exact ⟨List.mem_append_left _ (hmet fault hfault).1, (hmet fault hfault).2⟩
    · exact ⟨List.mem_append_right _ (hfurther fault hfault).1, (hfurther fault hfault).2⟩
  · intro pending faults
    have h := (hleads (more ++ pending) faults).trans (honward pending (faults ++ met))
    rw [List.append_assoc, List.filterMap_append, ← List.append_assoc faults]
    exact h

theorem Surveys.mono {items : List Pending} {paths : List Path} {budget second : Nat}
    (h : Surveys tree selection root items paths budget) (hle : budget ≤ second) :
    Surveys tree selection root items paths second := by
  obtain ⟨steps, met, hsteps, hmet, hleads⟩ := h
  exact ⟨steps, met, Nat.le_trans hsteps hle, hmet, hleads⟩

/-- An item stands for what its step puts out, and gives way to what is next. -/
theorem Surveys.onward {item : Pending} {next : List Pending} {found : Option FeatureFile}
    {own paths : List Path} {budget : Nat}
    (hstep : ∀ pending faults, step tree ⟨root, selection, item :: pending, faults⟩
      = some (found, ⟨root, selection, next ++ pending, faults⟩))
    (hown : own.filterMap (featureFile? tree selection) = found.toList)
    (hnext : Surveys tree selection root next paths budget) :
    Surveys tree selection root [item] (own ++ paths) (1 + budget) := by
  obtain ⟨steps, met, hsteps, hmet, hleads⟩ := hnext
  refine ⟨1 + steps, met, Nat.add_le_add_left hsteps 1, ?_, ?_⟩
  · intro fault hfault
    exact ⟨List.mem_append_right own (hmet fault hfault).1, (hmet fault hfault).2⟩
  · intro pending faults
    rw [List.filterMap_append, hown]
    exact (Leads.step (hstep pending faults)).trans (hleads pending faults)

/-- A path that is left out is passed over, and a folder with all below it. -/
theorem surveys_ignored {item : Pending} {reached : Reached}
    (hreach : reach tree item = .ok reached)
    (hignored : selection.ignores root reached.path = true)
    (hbelow : reached.kind = .folder ∨ reached.below = []) :
    Surveys tree selection root [item] [] 1 := by
  have hkept : (if reached.kind = .folder then [] else reached.below) = [] := by
    rcases hbelow with hkind | hbelow
    · rw [if_pos hkind]
    · rw [hbelow, ite_self]
  have hstep (pending : List Pending) (faults : List WalkFault) :
      step tree ⟨root, selection, item :: pending, faults⟩
        = some (none, ⟨root, selection, [] ++ pending, faults⟩) := by
    rw [step_of_ignores hreach hignored, hkept]
  have hnone : [].filterMap (featureFile? tree selection) = none.toList := rfl
  exact Surveys.onward hstep hnone Surveys.nil

/-- A path that is not left out stands for its file, and what is below it is next. -/
theorem surveys_reached {item : Pending} {reached : Reached} {paths : List Path}
    {budget : Nat} (hreach : reach tree item = .ok reached)
    (hclear : selection.ignores root reached.path = false)
    (hbelow : Surveys tree selection root reached.below paths budget) :
    Surveys tree selection root [item] (reached.path :: paths) (1 + budget) := by
  have hown : [reached.path].filterMap (featureFile? tree selection)
      = (featureFile? tree selection reached.path).toList := by
    rw [List.filterMap_cons]
    cases featureFile? tree selection reached.path <;> rfl
  exact Surveys.onward (step_of_clear hreach hclear) hown hbelow

/-! ## Entries -/

/-- What a path leads to is a node when it is a folder, or the path is too long. -/
def Sights (tree : FileTree) (path : Path) (node : Node) : Prop :=
  node.kind = .folder →
    (∃ place, tree.find .target path = .ok (place, node)) ∨
      maxPathBytes ≤ path.text.utf8ByteSize

theorem featureFile?_of_long {path : Path} (h : maxPathBytes ≤ path.text.utf8ByteSize) :
    featureFile? tree selection path = none := by
  obtain ⟨fault, hfault⟩ := tree.find_of_long h
  have hfile : tree.isFile path = false := by
    rw [FileTree.isFile, FileTree.targetKind, hfault]
    rfl
  rw [featureFile?, hfile, Bool.and_false]
  rfl

theorem Sights.child {path : Path} {entries : Entries} {name : FileName} {child : Node}
    (h : Sights tree path (.folder entries))
    (hchild : Entries.find? name entries = some child) :
    Sights tree (path.join ⟨String.ofList name.piece⟩) child := by
  intro hkind
  rcases Nat.lt_or_ge (path.join ⟨String.ofList name.piece⟩).text.utf8ByteSize maxPathBytes
    with hshort | hlong
  · rcases h rfl with ⟨place, hfind⟩ | hlong
    · have hlink : child.kind ≠ .link := by rw [hkind]; decide
      exact Or.inl ⟨place ++ [name], FileTree.find_join hfind hchild hlink hshort⟩
    · have hle := path.utf8ByteSize_le_join name
      exact absurd hshort (Nat.not_lt_of_le (Nat.le_trans hlong hle))
  · exact Or.inr hlong

/-- A folder under a path that is too long is met, and cannot be listed. -/
theorem surveys_long {item : Pending} {path : Path} {paths : List Path}
    (hreach : reach tree item = .ok (reachEntry tree path .folder))
    (hclear : selection.ignores root path = false)
    (hlong : maxPathBytes ≤ path.text.utf8ByteSize)
    (hpaths : ∀ other ∈ paths, maxPathBytes ≤ other.text.utf8ByteSize) :
    Surveys tree selection root [item] (path :: paths) 2 := by
  obtain ⟨cause, hcause⟩ := tree.find_of_long hlong
  have hbelow : below tree path = [.fault ⟨path, cause⟩] := by
    rw [below, FileTree.list, hcause]
  have hfiles : (path :: paths).filterMap (featureFile? tree selection) = [] := by
    apply List.filterMap_eq_nil_iff.2
    intro other hother
    apply featureFile?_of_long
    rcases List.mem_cons.1 hother with rfl | hother
    · exact hlong
    · exact hpaths other hother
  refine ⟨2, [⟨path, cause⟩], Nat.le_refl 2, ?_, ?_⟩
  · intro fault hfault
    rw [List.mem_singleton.1 hfault]
    exact ⟨List.mem_cons_self, hlong⟩
  · intro pending faults
    rw [hfiles]
    have hfirst : step tree ⟨root, selection, [item] ++ pending, faults⟩
        = some (none, ⟨root, selection, .fault ⟨path, cause⟩ :: pending, faults⟩) := by
      rw [List.singleton_append, step_of_clear hreach hclear]
      simp only [reachEntry, hbelow, featureFile?_of_long hlong, List.singleton_append]
    have hsecond : step tree ⟨root, selection, .fault ⟨path, cause⟩ :: pending, faults⟩
        = some (none, ⟨root, selection, pending, faults ++ [⟨path, cause⟩]⟩) := rfl
    exact (Leads.step hfirst).trans (Leads.step hsecond)

theorem surveys_entries (items : List (FileName × Node)) (path : Path)
    (h : ∀ entry ∈ items, Surveys tree selection root
      [.entry (path.join ⟨String.ofList entry.1.piece⟩) entry.2.kind]
      (selection.clearPaths root (path.join ⟨String.ofList entry.1.piece⟩) entry.2)
      (2 * entry.2.size)) :
    Surveys tree selection root
      (items.map fun entry => .entry (path.join ⟨String.ofList entry.1.piece⟩) entry.2.kind)
      (items.flatMap fun entry =>
        selection.clearPaths root (path.join ⟨String.ofList entry.1.piece⟩) entry.2)
      (2 * (items.map fun entry => entry.2.size).sum) := by
  induction items with
  | nil => exact Surveys.nil
  | cons entry items ih =>
    have hfirst := h entry List.mem_cons_self
    have hrest := ih fun other hother => h other (List.mem_cons_of_mem _ hother)
    rw [List.map_cons, List.map_cons, List.flatMap_cons, List.sum_cons, Nat.mul_add]
    exact hfirst.append hrest

/-- What is below a folder is reached entry by entry. -/
theorem surveys_below {path : Path} {place : Place} {entries : Entries}
    (hfind : tree.find .target path = .ok (place, .folder entries))
    (h : ∀ name child, Entries.find? name entries = some child → Surveys tree selection root
      [.entry (path.join ⟨String.ofList name.piece⟩) child.kind]
      (selection.clearPaths root (path.join ⟨String.ofList name.piece⟩) child)
      (2 * child.size)) :
    Surveys tree selection root (below tree path)
      ((Entries.sorted entries).flatMap fun entry =>
        selection.clearPaths root (path.join ⟨String.ofList entry.1.piece⟩) entry.2)
      (2 * Entries.sizeSum entries) := by
  have hbelow : below tree path = (Entries.sorted entries).map fun entry =>
      .entry (path.join ⟨String.ofList entry.1.piece⟩) entry.2.kind := by
    rw [below, FileTree.list, hfind]
    simp only [Entries.listing_eq, List.map_map]
    rfl
  have hle := Entries.sum_sorted_le entries
  rw [hbelow]
  refine (surveys_entries (Entries.sorted entries) path ?_).mono (by omega)
  intro entry hentry
  exact h entry.1 entry.2 (Entries.mem_sorted_iff.1 hentry)

/-- What is no folder is reached in one step. -/
theorem surveys_leaf {item : Pending} {path : Path} {node : Node}
    (hreach : reach tree item = .ok (reachEntry tree path node.kind))
    (hkind : node.kind ≠ .folder) :
    Surveys tree selection root [item] (selection.clearPaths root path node) 1 := by
  have hleaf : reachEntry tree path node.kind = ⟨path, node.kind, []⟩ := by
    cases node with
    | file content => rfl
    | link target => rfl
    | folder entries => exact absurd rfl hkind
  rw [hleaf] at hreach
  cases hignored : selection.ignores root path with
  | true =>
    rw [Selection.clearPaths_of_ignores hignored]
    exact surveys_ignored hreach hignored (Or.inr rfl)
  | false =>
    rw [Selection.clearPaths_of_ne_folder hignored hkind]
    exact surveys_reached hreach hignored Surveys.nil

/-- An entry is reached with all below it, as far as nothing is left out.  The induction
is on the node; what a folder lists is known as long as its path leads to it. -/
theorem surveys_entry {item : Pending} {path : Path} {node : Node}
    (hreach : reach tree item = .ok (reachEntry tree path node.kind))
    (hsights : Sights tree path node) :
    Surveys tree selection root [item] (selection.clearPaths root path node)
      (2 * node.size) := by
  induction node using Node.induction generalizing item path with
  | file content =>
    have hsize := (Node.file content).size_pos
    exact (surveys_leaf hreach (by exact nofun)).mono (by omega)
  | link target =>
    have hsize := (Node.link target).size_pos
    exact (surveys_leaf hreach (by exact nofun)).mono (by omega)
  | folder entries ih =>
    have hsize : (Node.folder entries).size = 1 + Entries.sizeSum entries := by
      rw [Node.size]
    cases hignored : selection.ignores root path with
    | true =>
      rw [Selection.clearPaths_of_ignores hignored]
      exact (surveys_ignored hreach hignored (Or.inl rfl)).mono (by omega)
    | false =>
      rw [Selection.clearPaths_folder hignored]
      rcases hsights rfl with ⟨place, hfind⟩ | hlong
      · have hentries := surveys_below hfind fun name child hchild =>
          ih name child hchild rfl (hsights.child hchild)
        exact (surveys_reached hreach hignored hentries).mono (by omega)
      · refine (surveys_long hreach hignored hlong ?_).mono (by omega)
        intro other hother
        obtain ⟨entry, _, hmem⟩ := List.mem_flatMap.1 hother
        obtain ⟨names, rfl⟩ := Selection.exists_under_of_mem_clearPaths hmem
        exact Nat.le_trans hlong (path.utf8ByteSize_le_under (entry.1 :: names))

/-! ## Whole walks -/

/-- A root that is no link is reached as an entry. -/
theorem reach_root {place : Place} {node : Node}
    (hroot : tree.find .entry root = .ok (place, node)) (hkind : node.kind ≠ .link) :
    reach tree (.root root) = .ok (reachEntry tree root node.kind) := by
  rw [reach, reachRoot, FileTree.entryKind, hroot]
  cases node with
  | file content => rfl
  | folder entries => rfl
  | link target => exact absurd rfl hkind

/-- Paths that are short enough meet no fault. -/
theorem met_eq_nil {paths : List Path} {met : List WalkFault}
    (hmet : ∀ fault ∈ met, fault.path ∈ paths ∧ maxPathBytes ≤ fault.path.text.utf8ByteSize)
    (hshort : ∀ path ∈ paths, path.text.utf8ByteSize < maxPathBytes) : met = [] := by
  apply List.eq_nil_iff_forall_not_mem.2
  intro fault hfault
  obtain ⟨hpath, hlong⟩ := hmet fault hfault
  exact absurd (hshort fault.path hpath) (Nat.not_lt_of_le hlong)

/-- A walk whose root is surveyed within its steps comes to its end, and yields what the surveyed
paths stand for. -/
theorem Surveys.drain {paths : List Path} {budget : Nat}
    (h : Surveys tree selection root [.root root] paths budget) (hbudget : budget ≤ 2 * tree.size) :
    ∃ met, (∀ fault ∈ met, fault.path ∈ paths ∧ maxPathBytes ≤ fault.path.text.utf8ByteSize) ∧
      (start root selection).drain tree
        = (paths.filterMap (featureFile? tree selection), ⟨root, selection, [], met⟩) := by
  obtain ⟨steps, met, hsteps, hmet, hleads⟩ := h
  refine ⟨met, hmet, ?_⟩
  obtain ⟨fuel, hfuel⟩ : ∃ fuel, (start root selection).enough tree = steps + fuel := by
    apply Nat.exists_eq_add_of_le
    have henough : (start root selection).enough tree = 1 * (2 * tree.size + 2) + 1 := rfl
    omega
  have hend : (⟨root, selection, [], met⟩ : Walk).drainWithin tree fuel
      = ([], ⟨root, selection, [], met⟩) := by
    cases fuel <;> rfl
  have hdrain := hleads [] [] fuel
  rw [List.append_nil, List.nil_append, hend, List.append_nil, ← hfuel] at hdrain
  exact hdrain

/-- A walk from a root that is no link comes to its end.  It yields what the clear paths
below the root stand for, and its faults are clear paths that are too long. -/
theorem drain_start (selection : Selection) {place : Place} {node : Node}
    (hroot : tree.find .entry root = .ok (place, node)) (hkind : node.kind ≠ .link) :
    ∃ met, (∀ fault ∈ met, fault.path ∈ selection.clearPaths root root node ∧
        maxPathBytes ≤ fault.path.text.utf8ByteSize) ∧
      (start root selection).drain tree
        = ((selection.clearPaths root root node).filterMap (featureFile? tree selection),
            ⟨root, selection, [], met⟩) := by
  have hsights : Sights tree root node :=
    fun _ => Or.inl ⟨place, FileTree.find_of_entry hroot hkind⟩
  have hsize : node.size ≤ tree.size :=
    Node.size_le_of_at? (FileTree.find_eq_ok_iff.1 hroot).2.2
  exact (surveys_entry (reach_root hroot hkind) hsights).drain (by omega)

end Surveys

/-! ## Calls of the walk -/

/-- The walk is called for the next feature file until there is none. -/
inductive Drains (tree : FileTree) : Walk → List FeatureFile → Walk → Prop
  | done {walk after : Walk} (last : walk.next tree = (none, after)) :
      Drains tree walk [] after
  | more {walk middle after : Walk} {file : FeatureFile} {files : List FeatureFile}
      (first : walk.next tree = (some file, middle)) (rest : Drains tree middle files after) :
      Drains tree walk (file :: files) after

/-- Of steps that lead to the end, those up to the first feature file are a call, and the
others lead on to the end. -/
theorem nextWithin_of_drainWithin {tree : FileTree} {steps fuel : Nat} {walk after : Walk}
    {files : List FeatureFile} (h : walk.drainWithin tree steps = (files, after))
    (hend : after.pending = []) (hfuel : steps ≤ fuel) :
    (files = [] ∧ walk.nextWithin tree fuel = (none, after)) ∨
      ∃ file rest middle left, files = file :: rest ∧
        walk.nextWithin tree fuel = (some file, middle) ∧ left < steps ∧
        middle.drainWithin tree left = (rest, after) := by
  induction steps generalizing walk files fuel with
  | zero =>
    cases h
    have hstep : step tree after = none := step_of_pending_nil hend
    cases fuel with
    | zero => exact Or.inl ⟨rfl, rfl⟩
    | succ fuel => exact Or.inl ⟨rfl, by rw [nextWithin, hstep]⟩
  | succ steps ih =>
    obtain ⟨fuel, rfl⟩ : ∃ less, fuel = less + 1 := ⟨fuel - 1, by omega⟩
    rw [drainWithin] at h
    cases hstep : step tree walk with
    | none =>
      rw [hstep] at h
      cases h
      exact Or.inl ⟨rfl, by rw [nextWithin, hstep]⟩
    | some reached =>
      obtain ⟨found, onward⟩ := reached
      rw [hstep] at h
      cases found with
      | some file =>
        cases h
        exact Or.inr ⟨file, _, onward, steps, rfl, by rw [nextWithin, hstep],
          Nat.lt_succ_self steps, rfl⟩
      | none =>
        have hnext : walk.nextWithin tree (fuel + 1) = onward.nextWithin tree fuel := by
          rw [nextWithin, hstep]
        rw [hnext]
        rcases ih h (Nat.le_of_succ_le_succ hfuel) with
          hnone | ⟨file, rest, middle, left, hfiles, hcall, hleft, hrest⟩
        · exact Or.inl hnone
        · exact Or.inr ⟨file, rest, middle, left, hfiles, hcall, Nat.lt_succ_of_lt hleft,
            hrest⟩

/-- What is put out on the way to the end is what the calls give. -/
theorem drains_of_drainWithin {tree : FileTree} {steps : Nat} {walk after : Walk}
    {files : List FeatureFile} (h : walk.drainWithin tree steps = (files, after))
    (hend : after.pending = []) (hsteps : steps ≤ 2 * tree.size + 3) :
    Drains tree walk files after := by
  induction steps using Nat.strongRecOn generalizing walk files with
  | ind steps ih =>
    -- With anything pending, the steps of one call are enough for all that are left.
    have henough : walk.pending = [] ∨ steps ≤ walk.enough tree := by
      cases hpending : walk.pending with
      | nil => exact Or.inl rfl
      | cons item pending =>
        apply Or.inr
        apply Nat.le_trans hsteps
        rw [enough, hpending, List.length_cons, Nat.add_mul]
        omega
    rcases henough with hnone | hfuel
    · have hstep : step tree walk = none := step_of_pending_nil hnone
      have hdrain : walk.drainWithin tree steps = ([], walk) := by
        cases steps with
        | zero => rfl
        | succ steps => rw [drainWithin, hstep]
      rw [hdrain] at h
      cases h
      apply Drains.done
      rw [next, enough, nextWithin, hstep]
    · rcases nextWithin_of_drainWithin h hend hfuel with
        ⟨rfl, hcall⟩ | ⟨file, rest, middle, left, rfl, hcall, hleft, hrest⟩
      · exact .done hcall
      · exact .more hcall (ih left hleft hrest (by omega))

end Walk

end FeatureDigest
