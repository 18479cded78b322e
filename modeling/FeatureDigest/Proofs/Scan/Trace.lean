import FeatureDigest.Proofs.Scan.Frontier
import FeatureDigest.Proofs.Scan.Survey

/-!
# Traces of walks

The trace of a walk tells the feature files that the walk yields together with the paths that
the walk reached them under, which the files do not keep: these have canonical paths
(`Walk.drain_eq_trace`).  What holds of each step holds of the trace of the steps
(`Walk.trace_of_step`), so all of its paths are below the root (`Walk.trace_under`).
-/

set_option autoImplicit false

namespace FeatureDigest.Walk

variable {tree : FileTree} {walk after : Walk} {found : Option FeatureFile}

/-- The path that is reached next, if one can be reached. -/
def ahead? (walk : Walk) : Option Path := walk.pending.head?.bind Pending.path?

/-- What a step has found, under the path that it has reached. -/
def sighting? (walk : Walk) (found : Option FeatureFile) : Option (Path × FeatureFile) :=
  walk.ahead?.bind fun path => found.map fun file => (path, file)

/-- The feature files of so many steps under the paths that they were reached under, and the
walk from there on. -/
def traceWithin (tree : FileTree) : (steps : Nat) → Walk → List (Path × FeatureFile) × Walk
  | 0, walk => ([], walk)
  | steps + 1, walk =>
    match walk.step tree with
    | none => ([], walk)
    | some (found, next) =>
      let (seen, after) := traceWithin tree steps next
      ((walk.sighting? found).toList ++ seen, after)

/-- The feature files up to the end of a walk under the paths that they were reached under. -/
def trace (tree : FileTree) (walk : Walk) : List (Path × FeatureFile) :=
  (walk.traceWithin tree (walk.enough tree)).1

theorem traceWithin_succ (h : walk.step tree = some (found, after)) (steps : Nat) :
    walk.traceWithin tree (steps + 1)
      = ((walk.sighting? found).toList ++ (after.traceWithin tree steps).1,
          (after.traceWithin tree steps).2) := by
  rw [traceWithin, h]

theorem traceWithin_of_step_eq_none (h : walk.step tree = none) (steps : Nat) :
    walk.traceWithin tree steps = ([], walk) := by
  cases steps with
  | zero => rfl
  | succ steps => rw [traceWithin, h]

theorem sighting?_none (walk : Walk) : walk.sighting? none = none := by
  rw [sighting?]
  cases walk.ahead? <;> rfl

theorem sighting?_eq_some_iff {path : Path} {file : FeatureFile} :
    walk.sighting? found = some (path, file) ↔ walk.ahead? = some path ∧ found = some file := by
  rw [sighting?]
  cases walk.ahead? with
  | none => simp
  | some other => cases found <;> simp

/-- What a step finds stands for the path that it reaches, which is not left out. -/
theorem sighting?_of_step (h : walk.step tree = some (found, after)) {file : FeatureFile}
    (hfile : found = some file) :
    ∃ path, walk.sighting? found = some (path, file) ∧
      walk.selection.ignores walk.root path = false ∧
      featureFile? tree walk.selection path = some file := by
  obtain ⟨item, pending, _, _, hpending, _, _, hfound⟩ := step_cases h
  obtain ⟨path, hpath, hclear, hyields⟩ := hfound file hfile
  have hahead : walk.ahead? = some path := by
    rw [ahead?, hpending]
    exact hpath
  exact ⟨path, sighting?_eq_some_iff.2 ⟨hahead, hfile⟩, hclear, hyields⟩

/-- What a step finds that reaches a path is found under the path. -/
theorem sighting?_of_reach {walk : Walk} {item : Pending} {pending : List Pending}
    {reached : Reached} (hpending : walk.pending = item :: pending)
    (hreach : reach tree item = .ok reached) (found : Option FeatureFile) :
    walk.sighting? found = found.map fun file => (reached.path, file) := by
  rw [sighting?, ahead?, hpending, List.head?_cons, Option.bind_some, (reach_ok hreach).1,
    Option.bind_some]

/-- The files of a trace are those that the steps put out. -/
theorem drainWithin_eq_traceWithin (tree : FileTree) (steps : Nat) (walk : Walk) :
    walk.drainWithin tree steps
      = ((walk.traceWithin tree steps).1.map Prod.snd, (walk.traceWithin tree steps).2) := by
  induction steps generalizing walk with
  | zero => rfl
  | succ steps ih =>
    cases hstep : walk.step tree with
    | none => rw [traceWithin_of_step_eq_none hstep, drainWithin, hstep]; rfl
    | some reached =>
      obtain ⟨found, next⟩ := reached
      have hfound : found.toList = (walk.sighting? found).toList.map Prod.snd := by
        cases hfile : found with
        | none => rw [sighting?_none]; rfl
        | some file =>
          obtain ⟨path, hsighting, _⟩ := sighting?_of_step hstep hfile
          rw [← hfile, hsighting, hfile]
          rfl
      rw [traceWithin_succ hstep, drainWithin, hstep]
      simp only [ih, hfound, List.map_append]

/-- The files of a trace are those that the walk yields, in order. -/
theorem drain_eq_trace (tree : FileTree) (walk : Walk) :
    (walk.drain tree).1 = (walk.trace tree).map Prod.snd := by
  rw [drain, drainWithin_eq_traceWithin, trace]

/-- Steps beyond the end add nothing to a trace. -/
theorem traceWithin_add {steps : Nat}
    (h : (walk.traceWithin tree steps).2.pending = []) (more : Nat) :
    walk.traceWithin tree (steps + more) = walk.traceWithin tree steps := by
  induction steps generalizing walk with
  | zero =>
    have hnone : walk.step tree = none := step_of_pending_nil h
    rw [traceWithin_of_step_eq_none hnone, traceWithin_of_step_eq_none hnone]
  | succ steps ih =>
    cases hstep : walk.step tree with
    | none => rw [traceWithin_of_step_eq_none hstep, traceWithin_of_step_eq_none hstep]
    | some reached =>
      obtain ⟨found, next⟩ := reached
      rw [traceWithin_succ hstep] at h
      rw [Nat.add_right_comm, traceWithin_succ hstep, traceWithin_succ hstep, ih h]

/-- What steps keep true of a walk, and what they then find, holds of all that the walk
finds. -/
theorem trace_of_step (invariant : Walk → Prop) (told : Path → FeatureFile → Prop)
    (hkept : ∀ {walk found after}, invariant walk → walk.step tree = some (found, after) →
      invariant after)
    (htold : ∀ {walk found after path file}, invariant walk →
      walk.step tree = some (found, after) → walk.sighting? found = some (path, file) →
      told path file)
    (hwalk : invariant walk) : ∀ seen ∈ walk.trace tree, told seen.1 seen.2 := by
  have hwithin (steps : Nat) {walk : Walk} (hwalk : invariant walk) :
      ∀ seen ∈ (walk.traceWithin tree steps).1, told seen.1 seen.2 := by
    induction steps generalizing walk with
    | zero => exact nofun
    | succ steps ih =>
      intro seen hseen
      cases hstep : walk.step tree with
      | none =>
        rw [traceWithin_of_step_eq_none hstep] at hseen
        cases hseen
      | some reached =>
        rw [traceWithin_succ hstep] at hseen
        rcases List.mem_append.1 hseen with hfirst | hlater
        · exact htold hwalk hstep (Option.mem_toList.1 hfirst)
        · exact ih (hkept hwalk hstep) seen hlater
  exact hwithin _ hwalk

/-- What a walk finds stands for paths below its root. -/
theorem trace_under (tree : FileTree) (root : Path) (selection : Selection) :
    ∀ seen ∈ (start root selection).trace tree,
      (∃ names, seen.1 = root.under names) ∧ featureFile? tree selection seen.1 = some seen.2 := by
  apply trace_of_step (fun walk => ∃ places, Lined root selection walk places)
    (fun path file =>
      (∃ names, path = root.under names) ∧ featureFile? tree selection path = some file)
    _ _ ⟨[[]], lined_start root selection⟩
  · rintro walk found after ⟨places, hlined⟩ hstep
    obtain ⟨onward, honward, _⟩ := step_lined hlined hstep
    exact ⟨onward, honward⟩
  · rintro walk found after path file ⟨places, hlined⟩ hstep hsighting
    obtain ⟨hahead, hfile⟩ := sighting?_eq_some_iff.1 hsighting
    obtain ⟨_, _, _, hfound⟩ := step_lined hlined hstep
    obtain ⟨item, pending, place, _, hpending, hpath, _, hyields, _⟩ := hfound file hfile
    rw [ahead?, hpending, List.head?_cons, Option.bind_some, hpath] at hahead
    cases hahead
    exact ⟨⟨place, rfl⟩, hyields⟩

end FeatureDigest.Walk
