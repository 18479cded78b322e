import FeatureDigest.Proofs.Scan.Trace

/-!
# The end of a walk

Whatever is pending, each item is passed within a number of steps: at once when it cannot be
reached, and after a survey of what it leads to otherwise (`passes_item`).  So a walk comes to
its end within the steps it is given (`pending_drain`), and more steps change nothing then
(`drainWithin_of_enough_le`); and a call gives a file, or has come to the end
(`pending_of_next`).
-/

set_option autoImplicit false

namespace FeatureDigest.Walk

variable {tree : FileTree} {selection : Selection} {root : Path}

/-! ## Passing what is pending -/

/-- Pending items are passed within a budget. -/
def Passes (tree : FileTree) (selection : Selection) (root : Path) (items : List Pending)
    (budget : Nat) : Prop :=
  ∃ steps files met, steps ≤ budget ∧
    ∀ pending faults, Leads tree steps ⟨root, selection, items ++ pending, faults⟩ files
      ⟨root, selection, pending, faults ++ met⟩

theorem Surveys.passes {items : List Pending} {paths : List Path} {budget : Nat}
    (h : Surveys tree selection root items paths budget) :
    Passes tree selection root items budget := by
  obtain ⟨steps, met, hsteps, _, hleads⟩ := h
  exact ⟨steps, _, met, hsteps, hleads⟩

theorem Passes.mono {items : List Pending} {budget second : Nat}
    (h : Passes tree selection root items budget) (hle : budget ≤ second) :
    Passes tree selection root items second := by
  obtain ⟨steps, files, met, hsteps, hleads⟩ := h
  exact ⟨steps, files, met, Nat.le_trans hsteps hle, hleads⟩

theorem Passes.append {items more : List Pending} {budget second : Nat}
    (hitems : Passes tree selection root items budget)
    (hmore : Passes tree selection root more second) :
    Passes tree selection root (items ++ more) (budget + second) := by
  obtain ⟨steps, files, met, hsteps, hleads⟩ := hitems
  obtain ⟨ahead, others, further, hahead, honward⟩ := hmore
  refine ⟨steps + ahead, files ++ others, met ++ further, Nat.add_le_add hsteps hahead, ?_⟩
  intro pending faults
  have h := (hleads (more ++ pending) faults).trans (honward pending (faults ++ met))
  rw [List.append_assoc, ← List.append_assoc faults]
  exact h

theorem passes_fault {item : Pending} {fault : WalkFault}
    (hreach : reach tree item = .error fault) : Passes tree selection root [item] 1 := by
  refine ⟨1, [], [fault], Nat.le_refl 1, ?_⟩
  intro pending faults
  exact Leads.step (step_of_error hreach pending faults)

/-- What is next below a path is passed, whatever the path leads to by now. -/
theorem passes_below (tree : FileTree) (selection : Selection) (root path : Path) :
    Passes tree selection root (below tree path) (2 * tree.size) := by
  have hsize : 0 < tree.size := tree.top.size_pos
  have hunlisted {cause : AccessFault} (hbelow : below tree path = [.fault ⟨path, cause⟩]) :
      Passes tree selection root (below tree path) (2 * tree.size) := by
    have hreach : reach tree (.fault ⟨path, cause⟩) = .error ⟨path, cause⟩ := rfl
    rw [hbelow]
    exact (passes_fault hreach).mono (by omega)
  cases hfind : tree.find .target path with
  | error cause => exact hunlisted (by rw [below, FileTree.list, hfind])
  | ok found =>
    obtain ⟨place, node⟩ := found
    cases node with
    | file content => exact hunlisted (by rw [below, FileTree.list, hfind])
    | link target => exact hunlisted (by rw [below, FileTree.list, hfind])
    | folder entries =>
      have hsights : Sights tree path (.folder entries) := fun _ => Or.inl ⟨place, hfind⟩
      have hentries : Surveys tree selection root (below tree path) _ _ :=
        surveys_below hfind fun name child hchild => surveys_entry rfl (hsights.child hchild)
      have hle : (Node.folder entries).size ≤ tree.size :=
        Node.size_le_of_at? (FileTree.find_eq_ok_iff.1 hfind).2.2
      rw [Node.size] at hle
      exact hentries.passes.mono (by omega)

/-- What is reached is passed, alone or with what is next below it. -/
theorem passes_reached {item : Pending} {reached : Reached}
    (hreach : reach tree item = .ok reached) :
    Passes tree selection root [item] (1 + 2 * tree.size) := by
  have hbelow : Passes tree selection root reached.below (2 * tree.size) := by
    rcases (reach_ok hreach).2 with hnone | hbelow
    · rw [hnone]
      exact Surveys.nil.passes.mono (Nat.zero_le _)
    · rw [hbelow]
      exact passes_below tree selection root reached.path
  have honward (found : Option FeatureFile)
      (hstep : ∀ pending faults, step tree ⟨root, selection, [item] ++ pending, faults⟩
        = some (found, ⟨root, selection, reached.below ++ pending, faults⟩)) :
      Passes tree selection root [item] (1 + 2 * tree.size) := by
    obtain ⟨steps, files, met, hsteps, hleads⟩ := hbelow
    refine ⟨1 + steps, found.toList ++ files, met, Nat.add_le_add_left hsteps 1, ?_⟩
    intro pending faults
    exact (Leads.step (hstep pending faults)).trans (hleads pending faults)
  cases hignored : selection.ignores root reached.path with
  | true =>
    by_cases hkind : reached.kind = .folder
    · have hpassed := surveys_ignored hreach hignored (Or.inl hkind)
      exact hpassed.passes.mono (Nat.le_add_right 1 _)
    · apply honward none
      intro pending faults
      rw [List.singleton_append, step_of_ignores hreach hignored, if_neg hkind]
  | false =>
    exact honward (featureFile? tree selection reached.path) (step_of_clear hreach hignored)

theorem passes_item (tree : FileTree) (selection : Selection) (root : Path) (item : Pending) :
    Passes tree selection root [item] (2 * tree.size + 2) := by
  cases hreach : reach tree item with
  | error fault => exact (passes_fault hreach).mono (by omega)
  | ok reached => exact (passes_reached hreach).mono (by omega)

theorem passes_all (tree : FileTree) (selection : Selection) (root : Path)
    (pending : List Pending) :
    Passes tree selection root pending (pending.length * (2 * tree.size + 2)) := by
  induction pending with
  | nil => exact Surveys.nil.passes.mono (Nat.zero_le _)
  | cons item pending ih =>
    rw [List.length_cons, Nat.succ_mul, Nat.add_comm]
    exact (passes_item tree selection root item).append ih

/-! ## The end -/

theorem drainWithin_add {steps : Nat} {walk : Walk}
    (h : (walk.drainWithin tree steps).2.pending = []) (more : Nat) :
    walk.drainWithin tree (steps + more) = walk.drainWithin tree steps := by
  rw [drainWithin_eq_traceWithin] at h ⊢
  rw [drainWithin_eq_traceWithin, traceWithin_add h]

/-- Fewer steps than are enough come to the end of a walk, whatever is pending. -/
theorem drainWithin_eq_end (tree : FileTree) (walk : Walk) :
    ∃ steps files met, steps < walk.enough tree ∧
      walk.drainWithin tree steps = (files, ⟨walk.root, walk.selection, [], met⟩) := by
  obtain ⟨steps, files, met, hsteps, hleads⟩ :=
    passes_all tree walk.selection walk.root walk.pending
  have hdrain := hleads [] walk.faults 0
  rw [List.append_nil, Nat.add_zero] at hdrain
  exact ⟨steps, _, _, Nat.lt_succ_of_le hsteps, hdrain⟩

theorem exists_drainWithin (tree : FileTree) (walk : Walk) :
    ∃ steps files after, steps < walk.enough tree ∧
      walk.drainWithin tree steps = (files, after) ∧ after.pending = [] := by
  obtain ⟨steps, files, met, hsteps, hdrain⟩ := drainWithin_eq_end tree walk
  exact ⟨steps, files, _, hsteps, hdrain, rfl⟩

theorem drain_of_drainWithin {steps : Nat} {walk after : Walk} {files : List FeatureFile}
    (hsteps : steps ≤ walk.enough tree) (h : walk.drainWithin tree steps = (files, after))
    (hend : after.pending = []) : walk.drain tree = (files, after) := by
  obtain ⟨more, hmore⟩ := Nat.exists_eq_add_of_le hsteps
  have hpending : (walk.drainWithin tree steps).2.pending = [] := by
    rw [h]
    exact hend
  rw [drain, hmore, drainWithin_add hpending, h]

/-- Nothing is pending after a walk was drained. -/
theorem pending_drain (tree : FileTree) (walk : Walk) : (walk.drain tree).2.pending = [] := by
  obtain ⟨steps, files, after, hsteps, hdrain, hend⟩ := exists_drainWithin tree walk
  rw [drain_of_drainWithin (Nat.le_of_lt hsteps) hdrain hend]
  exact hend

/-- Steps beyond those that are enough change nothing. -/
theorem drainWithin_of_enough_le {steps : Nat} {walk : Walk} (h : walk.enough tree ≤ steps) :
    walk.drainWithin tree steps = walk.drain tree := by
  obtain ⟨more, rfl⟩ := Nat.exists_eq_add_of_le h
  exact drainWithin_add (pending_drain tree walk) more

theorem pending_traceWithin_enough (tree : FileTree) (walk : Walk) :
    (walk.traceWithin tree (walk.enough tree)).2.pending = [] := by
  have hend := pending_drain tree walk
  rw [drain, drainWithin_eq_traceWithin] at hend
  exact hend

/-- Any number of steps that comes to the end leads to what the steps that are enough do. -/
theorem traceWithin_enough {steps : Nat} {walk : Walk}
    (h : (walk.traceWithin tree steps).2.pending = []) :
    walk.traceWithin tree (walk.enough tree) = walk.traceWithin tree steps := by
  have htrace := traceWithin_add (pending_traceWithin_enough tree walk) steps
  rw [Nat.add_comm, traceWithin_add h] at htrace
  exact htrace.symm

/-- Any number of steps that comes to the end drains the walk. -/
theorem drain_of_pending_nil {steps : Nat} {walk : Walk}
    (h : (walk.drainWithin tree steps).2.pending = []) :
    walk.drain tree = walk.drainWithin tree steps := by
  rw [drainWithin_eq_traceWithin] at h ⊢
  rw [drain, drainWithin_eq_traceWithin, traceWithin_enough h]

/-- Any number of steps that comes to the end gives the trace of the walk. -/
theorem trace_of_pending_nil {steps : Nat} {walk : Walk}
    (h : (walk.traceWithin tree steps).2.pending = []) :
    walk.trace tree = (walk.traceWithin tree steps).1 := by
  rw [trace, traceWithin_enough h]

/-- The calls of a walk come to its end, with all that it drains. -/
theorem drains_drain (tree : FileTree) (root : Path) (selection : Selection) :
    Drains tree (start root selection) ((start root selection).drain tree).1
      ((start root selection).drain tree).2 := by
  obtain ⟨steps, files, after, hsteps, hdrain, hend⟩ :=
    exists_drainWithin tree (start root selection)
  have henough : (start root selection).enough tree = 1 * (2 * tree.size + 2) + 1 := rfl
  rw [drain_of_drainWithin (Nat.le_of_lt hsteps) hdrain hend]
  exact drains_of_drainWithin hdrain hend (by omega)

/-- A call that gives no file has come to the end of the walk, whatever was pending. -/
theorem pending_of_next {walk after : Walk} (h : walk.next tree = (none, after)) :
    after.pending = [] := by
  obtain ⟨steps, files, last, hsteps, hdrain, hend⟩ := exists_drainWithin tree walk
  rcases nextWithin_of_drainWithin hdrain hend (Nat.le_of_lt hsteps) with
    ⟨_, hnext⟩ | ⟨file, _, _, _, _, hnext, _⟩
  · cases h.symm.trans hnext
    exact hend
  · cases h.symm.trans hnext

end FeatureDigest.Walk
