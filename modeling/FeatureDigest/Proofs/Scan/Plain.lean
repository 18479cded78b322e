import FeatureDigest.Proofs.FileTree.Plain
import FeatureDigest.Proofs.Gherkin.Characters
import FeatureDigest.Scan.Walk

/-!
# Walks without escape characters

A walk from a path without escape characters, in a tree without them, yields files without
them, and meets faults of such paths only: each step keeps what is pending free of them
(`plain_step`), so all steps do (`plain_drainWithin`).
-/

set_option autoImplicit false

namespace FeatureDigest

variable {tree : FileTree} {path : Path}

/-- Neither the path of the file nor a line of it has an escape character. -/
structure FeatureFile.Plain (file : FeatureFile) : Prop where
  path : Text.Plain file.path.text
  line : ∀ line ∈ file.lines, Text.Plain line

/-- The path to be reached has no escape character. -/
def Pending.Plain : Pending → Prop
  | .root path => Text.Plain path.text
  | .entry path _ => Text.Plain path.text
  | .fault met => Text.Plain met.path.text

/-- No path to be reached below has an escape character, nor has the path itself. -/
structure Reached.Plain (reached : Reached) : Prop where
  path : Text.Plain reached.path.text
  below : ∀ item ∈ reached.below, item.Plain

namespace Walk

/-- No path to be reached has an escape character, and no path that could not be accessed. -/
structure Plain (walk : Walk) : Prop where
  pending : ∀ item ∈ walk.pending, item.Plain
  fault : ∀ fault ∈ walk.faults, Text.Plain fault.path.text

theorem plain_start {root : Path} (h : Text.Plain root.text) (selection : Selection) :
    (start root selection).Plain := by
  refine ⟨?_, nofun⟩
  intro item hitem
  rw [List.mem_singleton.1 hitem]
  exact h

theorem plain_below (h : tree.Plain) (hpath : Text.Plain path.text) :
    ∀ item ∈ below tree path, item.Plain := by
  intro item hitem
  unfold below at hitem
  split at hitem
  · rename_i entries hlist
    obtain ⟨entry, hentry, rfl⟩ := List.mem_map.1 hitem
    exact Path.plain_join hpath (Text.plain_ofList.2 (h.list hlist entry hentry))
  · rw [List.mem_singleton.1 hitem]
    exact hpath

theorem plain_reachEntry (h : tree.Plain) (hpath : Text.Plain path.text) (kind : Node.Kind) :
    (reachEntry tree path kind).Plain := by
  cases kind with
  | file => exact ⟨hpath, nofun⟩
  | folder => exact ⟨hpath, plain_below h hpath⟩
  | link => exact ⟨hpath, nofun⟩

theorem plain_reachRoot (h : tree.Plain) (hpath : Text.Plain path.text) :
    match reachRoot tree path with
    | .ok reached => reached.Plain
    | .error fault => Text.Plain fault.path.text := by
  unfold reachRoot
  cases tree.entryKind path with
  | error cause => exact hpath
  | ok kind =>
    cases kind with
    | file => exact plain_reachEntry h hpath .file
    | folder => exact plain_reachEntry h hpath .folder
    | link =>
      dsimp only
      cases tree.targetKind path with
      | error cause => exact hpath
      | ok target =>
        cases target with
        | file => exact ⟨hpath, nofun⟩
        | folder => exact ⟨hpath, plain_below h hpath⟩
        | link => exact ⟨hpath, nofun⟩

theorem plain_reach (h : tree.Plain) {item : Pending} (hitem : item.Plain) :
    match reach tree item with
    | .ok reached => reached.Plain
    | .error fault => Text.Plain fault.path.text := by
  cases item with
  | root path => exact plain_reachRoot h hitem
  | entry path kind => exact plain_reachEntry h hitem kind
  | fault fault => exact hitem

theorem plain_featureFile? (h : tree.Plain) (hpath : Text.Plain path.text)
    {selection : Selection} {file : FeatureFile}
    (hfile : featureFile? tree selection path = some file) : file.Plain := by
  unfold featureFile? at hfile
  split at hfile
  · cases hfile
    refine ⟨h.canonicalOrAbsolute hpath, ?_⟩
    intro line hline hc
    dsimp only at hline
    obtain ⟨htext, _⟩ := Text.mem_text_of_mem_line hline hc
    exact h.textOrEmpty _ htext
  · cases hfile

/-- A step yields a file without escape characters, if any, and adds no path with one. -/
theorem plain_step (h : tree.Plain) {walk after : Walk} (hwalk : walk.Plain)
    {found : Option FeatureFile} (hstep : walk.step tree = some (found, after)) :
    (∀ file ∈ found, file.Plain) ∧ after.Plain := by
  unfold step at hstep
  split at hstep
  · cases hstep
  · rename_i item pending hpending
    have hitem : item.Plain := hwalk.pending item (by simp [hpending])
    have hrest : ∀ other ∈ pending, other.Plain := fun other hother =>
      hwalk.pending other (by simp [hpending, hother])
    have hreach := plain_reach h hitem
    split at hstep
    · rename_i fault hfault
      rw [hfault] at hreach
      cases hstep
      refine ⟨nofun, hrest, ?_⟩
      intro other hother
      rcases List.mem_append.1 hother with hother | hother
      · exact hwalk.fault other hother
      · rw [List.mem_singleton.1 hother]
        exact hreach
    · rename_i reached hreached
      rw [hreached] at hreach
      have honward (kept : List Pending) (hkept : ∀ other ∈ kept, other.Plain) :
          { walk with pending := kept ++ pending : Walk }.Plain := by
        refine ⟨?_, hwalk.fault⟩
        intro other hother
        rcases List.mem_append.1 hother with hother | hother
        · exact hkept other hother
        · exact hrest other hother
      split at hstep
      · cases hstep
        refine ⟨nofun, honward _ ?_⟩
        intro other hother
        split at hother
        · cases hother
        · exact hreach.below other hother
      · cases hstep
        refine ⟨?_, honward _ hreach.below⟩
        intro file hfile
        exact plain_featureFile? h hreach.path (Option.mem_def.1 hfile)

/-- A run of steps yields files without escape characters, and adds no path with one. -/
theorem plain_drainWithin (h : tree.Plain) (steps : Nat) {walk : Walk} (hwalk : walk.Plain) :
    (∀ file ∈ (drainWithin tree steps walk).1, file.Plain) ∧
      (drainWithin tree steps walk).2.Plain := by
  induction steps generalizing walk with
  | zero => exact ⟨nofun, hwalk⟩
  | succ steps ih =>
    rw [drainWithin]
    cases hstep : walk.step tree with
    | none => exact ⟨nofun, hwalk⟩
    | some reached =>
      obtain ⟨found, after⟩ := reached
      obtain ⟨hfound, hafter⟩ := plain_step h hwalk hstep
      obtain ⟨hfiles, hend⟩ := ih hafter
      refine ⟨?_, hend⟩
      intro file hfile
      rcases List.mem_append.1 hfile with hfile | hfile
      · exact hfound file (Option.mem_toList.1 hfile)
      · exact hfiles file hfile

theorem plain_drain (h : tree.Plain) {root : Path} (hroot : Text.Plain root.text)
    (selection : Selection) :
    (∀ file ∈ ((start root selection).drain tree).1, file.Plain) ∧
      ((start root selection).drain tree).2.Plain :=
  plain_drainWithin h _ (plain_start hroot selection)

end Walk

end FeatureDigest
