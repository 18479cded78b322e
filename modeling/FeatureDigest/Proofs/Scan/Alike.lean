import FeatureDigest.Proofs.FileTree.Alike
import FeatureDigest.Proofs.Scan.Ending
import FeatureDigest.Proofs.Scan.Yield

/-!
# Walks through trees that are alike

A walk takes the same steps in two trees that are alike, and comes to the same files: only
the lines of these are read from the one tree or the other (`step_alike`, `drain_alike`).
So the bytes that nothing is read from play no part (`drain_eq_of_alike`).
-/

set_option autoImplicit false

namespace FeatureDigest

/-- The file with the lines that a tree has under its path. -/
def FeatureFile.reread (tree : FileTree) (file : FeatureFile) : FeatureFile :=
  ⟨file.path, Text.lines (tree.textOrEmpty file.path)⟩

namespace Walk

variable {first second : FileTree}

theorem featureFile?_alike (h : first.Alike second) (selection : Selection) (path : Path) :
    featureFile? second selection path
      = (featureFile? first selection path).map (FeatureFile.reread second) := by
  rw [featureFile?, featureFile?, h.isFile, h.canonicalOrAbsolute]
  split <;> rfl

theorem below_alike (h : first.Alike second) (path : Path) :
    below first path = below second path := by
  rw [below, below, h.list]

theorem reachEntry_alike (h : first.Alike second) (path : Path) (kind : Node.Kind) :
    reachEntry first path kind = reachEntry second path kind := by
  cases kind with
  | file => rfl
  | folder => rw [reachEntry, reachEntry, below_alike h]
  | link => rfl

theorem reach_alike (h : first.Alike second) (item : Pending) :
    reach first item = reach second item := by
  cases item with
  | root path =>
    simp only [reach, reachRoot, h.entryKind, h.targetKind, below_alike h, reachEntry_alike h]
  | entry path kind => rw [reach, reach, reachEntry_alike h]
  | fault fault => rfl

/-- A step is the same in both trees, but for the lines of the file that it comes to. -/
theorem step_alike (h : first.Alike second) (walk : Walk) :
    step second walk = (step first walk).map fun reached =>
      (reached.1.map (FeatureFile.reread second), reached.2) := by
  unfold step
  cases walk.pending with
  | nil => rfl
  | cons item pending =>
    dsimp only
    rw [reach_alike h]
    cases reach second item with
    | error fault => rfl
    | ok reached =>
      dsimp only
      split
      · rfl
      · rw [featureFile?_alike h]
        rfl

theorem drainWithin_alike (h : first.Alike second) (steps : Nat) (walk : Walk) :
    drainWithin second steps walk
      = ((drainWithin first steps walk).1.map (FeatureFile.reread second),
          (drainWithin first steps walk).2) := by
  induction steps generalizing walk with
  | zero => rfl
  | succ steps ih =>
    rw [drainWithin, drainWithin, step_alike h]
    cases step first walk with
    | none => rfl
    | some reached =>
      obtain ⟨found, next⟩ := reached
      cases found <;> simp [ih]

/-- A walk comes to the same files in both trees, and meets the same faults. -/
theorem drain_alike (h : first.Alike second) (root : Path) (selection : Selection) :
    (start root selection).drain second
      = (((start root selection).drain first).1.map (FeatureFile.reread second),
          ((start root selection).drain first).2) := by
  have hfirst : (start root selection).enough first
      ≤ (start root selection).enough first + (start root selection).enough second :=
    Nat.le_add_right _ _
  have hsecond : (start root selection).enough second
      ≤ (start root selection).enough first + (start root selection).enough second :=
    Nat.le_add_left _ _
  rw [← drainWithin_of_enough_le hfirst, ← drainWithin_of_enough_le hsecond,
    drainWithin_alike h]

/-- The files that a walk yields have the lines that are read under their paths. -/
theorem map_reread_drain (tree : FileTree) (root : Path) (selection : Selection) :
    ((start root selection).drain tree).1.map (FeatureFile.reread tree)
      = ((start root selection).drain tree).1 :=
  (congrArg Prod.fst (drain_alike (.refl tree) root selection)).symm

theorem lines_of_mem_drain {tree : FileTree} {root : Path} {selection : Selection}
    {file : FeatureFile} (h : file ∈ ((start root selection).drain tree).1) :
    file.lines = Text.lines (tree.textOrEmpty file.path) := by
  rw [← map_reread_drain] at h
  obtain ⟨other, _, rfl⟩ := List.mem_map.1 h
  rfl

/-- A walk yields the same in both trees when all files that it yields have the same lines in
both. -/
theorem drain_eq_of_alike (h : first.Alike second) {root : Path} {selection : Selection}
    (hlines : ∀ file ∈ ((start root selection).drain first).1,
      file.reread second = file.reread first) :
    (start root selection).drain second = (start root selection).drain first := by
  rw [drain_alike h, List.map_congr_left hlines, map_reread_drain]

end Walk

/-! ## Contents -/

theorem contentLines_eq_nil {content : ByteArray} (h : String.fromUTF8? content = none) :
    contentLines content = [] := by
  rw [contentLines, h]

namespace FileTree

variable {first second : FileTree}

/-- The file at a place is not UTF-8 in one of two trees, and empty in the other. -/
def Hollow (first second : FileTree) (place : Place) : Prop :=
  ∃ content, String.fromUTF8? content = none ∧
    ((first.content? place = some content ∧ second.content? place = some .empty) ∨
      (first.content? place = some .empty ∧ second.content? place = some content))

/-- The file at a hollow place has no lines in either tree. -/
theorem Hollow.contentLines {place : Place} {content other : ByteArray}
    (h : Hollow first second place) (hfirst : first.content? place = some content)
    (hsecond : second.content? place = some other) :
    contentLines content = contentLines other := by
  obtain ⟨held, hheld, hplaces⟩ := h
  have hnone := contentLines_eq_nil hheld
  rcases hplaces with ⟨hone, htwo⟩ | ⟨hone, htwo⟩
  · rw [Option.some.inj (hfirst.symm.trans hone), Option.some.inj (hsecond.symm.trans htwo)]
    exact hnone
  · rw [Option.some.inj (hfirst.symm.trans hone), Option.some.inj (hsecond.symm.trans htwo)]
    exact hnone.symm

theorem content?_of_find {tree : FileTree} {aim : Aim} {path : Path} {place : Place}
    {content : ByteArray} (h : tree.find aim path = .ok (place, .file content)) :
    tree.content? place = some content :=
  content?_eq_some_iff.2 (find_eq_ok_iff.1 h).2.2

/-- A path leads to files in both trees, or its text cannot be had for the same cause. -/
theorem Alike.readText_cases (h : first.Alike second) (path : Path) :
    (∃ fault, first.readText path = .error fault ∧ second.readText path = .error fault) ∨
      ∃ place content other, first.find .target path = .ok (place, .file content) ∧
        second.find .target path = .ok (place, .file other) := by
  unfold FileTree.readText
  rcases h.find .target path with
    ⟨fault, hfirst, hsecond⟩ | ⟨place, node, other, hfirst, hsecond, houtline⟩
  · rw [hfirst, hsecond]
    exact Or.inl ⟨fault, rfl, rfl⟩
  · rw [hfirst, hsecond]
    cases node with
    | file content =>
      obtain ⟨bytes, rfl⟩ := Node.exists_file houtline
      exact Or.inr ⟨place, content, bytes, rfl, rfl⟩
    | folder entries =>
      obtain ⟨others, rfl⟩ := Node.exists_folder houtline
      exact Or.inl ⟨.isFolder, rfl, rfl⟩
    | link target =>
      rw [Node.eq_link houtline]
      exact Or.inl ⟨.isFolder, rfl, rfl⟩

/-- A text is read alike when its bytes are the same in both trees. -/
theorem Alike.readText (h : first.Alike second) {path : Path}
    (hsame : ∀ place node, first.find .target path = .ok (place, node) →
      first.content? place = second.content? place) :
    first.readText path = second.readText path := by
  rcases h.readText_cases path with
    ⟨fault, hfirst, hsecond⟩ | ⟨place, content, other, hfirst, hsecond⟩
  · rw [hfirst, hsecond]
  · have hplace := hsame place _ hfirst
    rw [content?_of_find hfirst, content?_of_find hsecond, Option.some.injEq] at hplace
    rw [FileTree.readText, FileTree.readText, hfirst, hsecond, hplace]

/-- A file has the same lines in both trees when its bytes are the same, or are read as no
text in either. -/
theorem Alike.reread (h : first.Alike second) {file : FeatureFile}
    (hsame : ∀ place node, first.find .target file.path = .ok (place, node) →
      first.content? place = second.content? place ∨ Hollow first second place) :
    file.reread second = file.reread first := by
  have hlines : Text.lines (second.textOrEmpty file.path)
      = Text.lines (first.textOrEmpty file.path) := by
    rcases h.readText_cases file.path with
      ⟨fault, hfirst, hsecond⟩ | ⟨place, content, other, hfirst, hsecond⟩
    · rw [textOrEmpty, textOrEmpty, hfirst, hsecond]
    · have hcontent := content?_of_find hfirst
      have hother := content?_of_find hsecond
      rw [lines_textOrEmpty hfirst, lines_textOrEmpty hsecond]
      rcases hsame place _ hfirst with heq | hhollow
      · rw [hcontent, hother, Option.some.injEq] at heq
        rw [heq]
      · exact (hhollow.contentLines hcontent hother).symm
  rw [FeatureFile.reread, FeatureFile.reread, hlines]

end FileTree

end FeatureDigest
