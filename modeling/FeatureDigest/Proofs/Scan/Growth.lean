import FeatureDigest.Proofs.FileTree.Growth
import FeatureDigest.Proofs.Path.Components
import FeatureDigest.Proofs.Scan.Ending
import FeatureDigest.Proofs.Scan.Yield

/-!
# Walks through a tree that has gained a file

In a tree that has gained a file which is not selected, a walk has one item more to reach when
it comes by the file, and passes it without a trace (`step_idle`).  All its other steps are
those that it takes in the tree before (`step_hides`), so that it yields the same files and
meets the same faults (`drain_hides`).
-/

set_option autoImplicit false

namespace FeatureDigest

/-! ## Access -/

namespace FileTree

theorem find_ne_notFound {tree : FileTree} {aim : Aim} {path : Path} {place : Place}
    {node : Node} (h : tree.find aim path = .ok (place, node)) :
    tree.find aim path ≠ .error .notFound := by
  rw [h]
  intro heq
  cases heq

theorem find_long_ne_notFound (tree : FileTree) {path : Path}
    (h : maxPathBytes ≤ path.text.utf8ByteSize) : tree.find .target path ≠ .error .notFound := by
  have houtset : tree.outset .target path = .error .nulInPath ∨
      tree.outset .target path = .error .nameTooLong := by
    unfold outset
    split
    · exact Or.inl rfl
    · rw [if_pos ⟨by decide, h⟩]
      exact Or.inr rfl
  rw [find, resolve]
  intro heq
  rcases houtset with houtset | houtset
  · rw [houtset] at heq
    cases heq
  · rw [houtset] at heq
    cases heq

end FileTree

/-- A selection hides what a tree has gained: the first tree has no links, and the second one
has a file more, whose name has none of the extensions. -/
structure Selection.Hides (selection : Selection) (first second : FileTree) (front : Place)
    (name : FileName) (content : ByteArray) : Prop
    extends first.Gains second (front ++ [name]) content where
  plain : ∀ place target, first.at? place ≠ some (.link target)
  hidden : ∀ path : Path,
    (path.join ⟨String.ofList name.piece⟩).hasExtension selection.extensions = false

namespace Walk

variable {first second : FileTree} {selection : Selection} {front : Place} {name : FileName}
  {content : ByteArray}

/-- The feature file of a path that leads to something is the same in a tree that has grown. -/
theorem featureFile?_grows (h : first.Grows second) {path : Path}
    (hthere : first.find .target path ≠ .error .notFound) (selection : Selection) :
    featureFile? second selection path = featureFile? first selection path := by
  rw [featureFile?, featureFile?, h.isFile hthere]
  cases hfile : first.isFile path with
  | false => rw [Bool.and_false, if_neg Bool.false_ne_true, if_neg Bool.false_ne_true]
  | true =>
    obtain ⟨target, content, hfind⟩ := FileTree.isFile_eq_true_iff.1 hfile
    have habsolute : second.absolute path = first.absolute path := by
      rw [FileTree.absolute, FileTree.absolute, h.here]
    have hknown : first.find .canonical path ≠ .error .notFound := by
      rcases FileTree.canonical_cases hfind with hcanonical | ⟨hcanonical, _⟩
      · exact FileTree.find_ne_notFound hcanonical
      · rw [hcanonical]
        intro heq
        cases heq
    have hseen : second.canonicalOrAbsolute path = first.canonicalOrAbsolute path := by
      rw [FileTree.canonicalOrAbsolute, FileTree.canonicalOrAbsolute, h.canonical hknown,
        habsolute]
    have hthere : first.find .target (first.canonicalOrAbsolute path) ≠ .error .notFound := by
      rw [FileTree.canonicalOrAbsolute, FileTree.canonical]
      rcases FileTree.canonical_cases hfind with hcanonical | ⟨hcanonical, _⟩
      · rw [hcanonical]
        exact FileTree.find_ne_notFound (FileTree.find_of_canonical hcanonical)
      · rw [hcanonical]
        rcases Nat.lt_or_ge (first.absolute path).text.utf8ByteSize maxPathBytes
          with hshort | hlong
        · exact FileTree.find_ne_notFound (FileTree.find_absolute hfind hshort)
        · exact first.find_long_ne_notFound hlong
    simp only [hseen, FileTree.textOrEmpty, h.readText hthere]

/-! ## Padding -/

/-- An item that is no folder and has no extension of the selection. -/
inductive Idle (selection : Selection) : Pending → Prop
  | entry {path : Path} {kind : Node.Kind} (leaf : kind ≠ .folder)
      (hidden : path.hasExtension selection.extensions = false) :
      Idle selection (.entry path kind)

/-- The second list has the items of the first one in order, and idle items besides. -/
inductive Padded (selection : Selection) : List Pending → List Pending → Prop
  | nil : Padded selection [] []
  | keep (item : Pending) {items padded : List Pending}
      (rest : Padded selection items padded) :
      Padded selection (item :: items) (item :: padded)
  | idle {item : Pending} {items padded : List Pending} (passed : Idle selection item)
      (rest : Padded selection items padded) : Padded selection items (item :: padded)

theorem Padded.refl (selection : Selection) (items : List Pending) :
    Padded selection items items := by
  induction items with
  | nil => exact .nil
  | cons item items ih => exact .keep item ih

theorem Padded.append {items padded more further : List Pending}
    (hitems : Padded selection items padded) (hmore : Padded selection more further) :
    Padded selection (items ++ more) (padded ++ further) := by
  induction hitems with
  | nil => exact hmore
  | keep item _ ih => exact .keep item ih
  | idle hidle _ ih => exact .idle hidle ih

theorem padded_filter {α : Type} {kept : α → Bool} {item : α → Pending} {held : List α}
    (h : ∀ one ∈ held, kept one = false → Idle selection (item one)) :
    Padded selection ((held.filter kept).map item) (held.map item) := by
  induction held with
  | nil => exact .nil
  | cons one held ih =>
    have hrest := ih fun other hother => h other (List.mem_cons_of_mem one hother)
    cases hone : kept one with
    | true =>
      rw [List.filter_cons_of_pos hone]
      exact .keep (item one) hrest
    | false =>
      rw [List.filter_cons_of_neg (by rw [hone]; exact Bool.false_ne_true)]
      exact .idle (h one List.mem_cons_self hone) hrest

/-- An idle item is passed without a trace. -/
theorem step_idle (tree : FileTree) {item : Pending} (h : Idle selection item) (root : Path)
    (pending : List Pending) (faults : List WalkFault) :
    step tree ⟨root, selection, item :: pending, faults⟩
      = some (none, ⟨root, selection, pending, faults⟩) := by
  cases h with
  | @entry path kind hleaf hhidden =>
    have hreach : reach tree (.entry path kind) = .ok ⟨path, kind, []⟩ := by
      cases kind with
      | file => rfl
      | folder => exact absurd rfl hleaf
      | link => rfl
    have hnone : featureFile? tree selection path = none := by
      rw [featureFile?, hhidden, Bool.false_and, if_neg Bool.false_ne_true]
    simp only [step, hreach, hnone, if_neg hleaf, List.nil_append, ite_self]

/-! ## Items that are there -/

/-- The path of a pending item leads to something, or fails for another cause than that
nothing is there. -/
inductive Sure (tree : FileTree) : Pending → Prop
  | root {path : Path} (entry : tree.find .entry path ≠ .error .notFound)
      (target : tree.find .target path ≠ .error .notFound) : Sure tree (.root path)
  | entry {path : Path} {kind : Node.Kind}
      (target : tree.find .target path ≠ .error .notFound) : Sure tree (.entry path kind)
  | fault (fault : WalkFault) : Sure tree (.fault fault)

/-- A folder lists what it did before, and the file that was gained when it holds it. -/
theorem listing_hides (h : selection.Hides first second front name content) {place : Place}
    {entries others : Entries} (hfirst : first.at? place = some (.folder entries))
    (hsecond : second.at? place = some (.folder others)) :
    Entries.listing entries
      = (Entries.listing others).filter fun entry => place ++ [entry.1] ≠ front ++ [name] := by
  apply Entries.eq_of_mem_iff (Entries.pairwise_listing entries)
    ((Entries.pairwise_listing others).filter _)
  intro other kind
  rw [List.mem_filter, Entries.mem_listing_iff, Entries.mem_listing_iff,
    ← FileTree.at?_child hfirst, ← FileTree.at?_child hsecond, decide_eq_true_iff]
  by_cases hplace : place ++ [other] = front ++ [name]
  · simp [hplace, h.missing]
  · cases hat : first.at? (place ++ [other]) with
    | none => simp [h.alone _ hplace hat]
    | some node =>
      obtain ⟨twin, htwin, hmatch⟩ := h.kept hat
      simp [htwin, hmatch.kind_eq, hplace]

/-- What is listed next below a path is what was listed before, padded. -/
theorem below_hides (h : selection.Hides first second front name content) {path : Path}
    (hthere : first.find .target path ≠ .error .notFound) :
    Padded selection (below first path) (below second path) ∧
      ∀ item ∈ below first path, Sure first item := by
  have hfault (cause : AccessFault) (hfirst : below first path = [.fault ⟨path, cause⟩])
      (hsecond : below second path = [.fault ⟨path, cause⟩]) :
      Padded selection (below first path) (below second path) ∧
        ∀ item ∈ below first path, Sure first item := by
    rw [hfirst, hsecond]
    refine ⟨.refl selection _, ?_⟩
    intro item hitem
    rw [List.mem_singleton.1 hitem]
    exact .fault _
  rcases h.find (by decide) hthere with
    ⟨cause, hfirst, hsecond⟩ | ⟨place, node, twin, hfirst, hsecond, hmatch⟩
  · apply hfault cause
    · rw [below, FileTree.list, hfirst]
    · rw [below, FileTree.list, hsecond]
  · cases hmatch with
    | file bytes =>
      apply hfault .notFolder
      · rw [below, FileTree.list, hfirst]
      · rw [below, FileTree.list, hsecond]
    | link target =>
      apply hfault .notFolder
      · rw [below, FileTree.list, hfirst]
      · rw [below, FileTree.list, hsecond]
    | folder entries others =>
      have hat := (FileTree.find_eq_ok_iff.1 hfirst).2.2
      have hatSecond := (FileTree.find_eq_ok_iff.1 hsecond).2.2
      have hbelow : below first path = (Entries.listing entries).map fun entry =>
          .entry (path.join ⟨String.ofList entry.1.piece⟩) entry.2 := by
        rw [below, FileTree.list, hfirst]
      have hbelowSecond : below second path = (Entries.listing others).map fun entry =>
          .entry (path.join ⟨String.ofList entry.1.piece⟩) entry.2 := by
        rw [below, FileTree.list, hsecond]
      refine ⟨?_, ?_⟩
      · rw [hbelow, hbelowSecond, listing_hides h hat hatSecond]
        apply padded_filter
        rintro ⟨other, kind⟩ hmem hdropped
        have hplace : place ++ [other] = front ++ [name] := by simpa using hdropped
        have hname : other = name := by simpa using congrArg List.getLast? hplace
        have hkind : kind = .file := by
          rw [Entries.mem_listing_iff, ← FileTree.at?_child hatSecond, hplace, h.made] at hmem
          exact (Option.some.inj hmem).symm
        subst hname hkind
        have hleaf : Node.Kind.file ≠ .folder := by decide
        exact .entry hleaf (h.hidden path)
      · rw [hbelow]
        intro item hitem
        obtain ⟨⟨other, kind⟩, hmem, rfl⟩ := List.mem_map.1 hitem
        obtain ⟨child, hchild, rfl⟩ := Option.map_eq_some_iff.1 (Entries.mem_listing_iff.1 hmem)
        apply Sure.entry
        rcases Nat.lt_or_ge (path.join ⟨String.ofList other.piece⟩).text.utf8ByteSize
          maxPathBytes with hshort | hlong
        · have hkind : child.kind ≠ .link := by
            rw [← FileTree.at?_child hat] at hchild
            cases child with
            | file bytes =>
              intro heq
              cases heq
            | folder held =>
              intro heq
              cases heq
            | link target => exact absurd hchild (h.plain _ target)
          exact FileTree.find_ne_notFound (FileTree.find_join hfirst hchild hkind hshort)
        · exact first.find_long_ne_notFound hlong

/-! ## Steps -/

/-- What is reached in two trees is the same but for idle items below it, and it is there in
the first tree. -/
inductive Twins (selection : Selection) (first : FileTree) :
    Except WalkFault Reached → Except WalkFault Reached → Prop
  | fault (fault : WalkFault) : Twins selection first (.error fault) (.error fault)
  | reached {path : Path} {kind : Node.Kind} {items padded : List Pending}
      (there : first.find .target path ≠ .error .notFound)
      (below : Padded selection items padded) (sure : ∀ item ∈ items, Sure first item) :
      Twins selection first (.ok ⟨path, kind, items⟩) (.ok ⟨path, kind, padded⟩)

theorem Twins.leaf {path : Path} (hthere : first.find .target path ≠ .error .notFound)
    (kind : Node.Kind) :
    Twins selection first (.ok ⟨path, kind, []⟩) (.ok ⟨path, kind, []⟩) :=
  .reached hthere .nil nofun

theorem twins_below (h : selection.Hides first second front name content) {path : Path}
    (hthere : first.find .target path ≠ .error .notFound) (kind : Node.Kind) :
    Twins selection first (.ok ⟨path, kind, below first path⟩)
      (.ok ⟨path, kind, below second path⟩) := by
  obtain ⟨hpadded, hsure⟩ := below_hides h hthere
  exact .reached hthere hpadded hsure

theorem twins_entry (h : selection.Hides first second front name content) {path : Path}
    (hthere : first.find .target path ≠ .error .notFound) (kind : Node.Kind) :
    Twins selection first (.ok (reachEntry first path kind))
      (.ok (reachEntry second path kind)) := by
  cases kind with
  | file => exact .leaf hthere .file
  | folder => exact twins_below h hthere .folder
  | link => exact .leaf hthere .link

/-- An item that is there is reached alike in both trees. -/
theorem reach_hides (h : selection.Hides first second front name content) {item : Pending}
    (hsure : Sure first item) : Twins selection first (reach first item) (reach second item) := by
  cases hsure with
  | fault fault => exact .fault fault
  | @entry path kind htarget => exact twins_entry h htarget kind
  | @root path hentry htarget =>
    have hsame : second.entryKind path = first.entryKind path := h.kind (by decide) hentry
    have hsameTarget : second.targetKind path = first.targetKind path :=
      h.kind (by decide) htarget
    rw [reach, reach, reachRoot, reachRoot, hsame, hsameTarget]
    cases first.entryKind path with
    | error cause => exact .fault ⟨path, cause⟩
    | ok kind =>
      cases kind with
      | file => exact twins_entry h htarget .file
      | folder => exact twins_entry h htarget .folder
      | link =>
        cases first.targetKind path with
        | error cause => exact .fault ⟨path, cause⟩
        | ok aim =>
          cases aim with
          | file => exact .leaf htarget .link
          | folder => exact twins_below h htarget .link
          | link => exact .leaf htarget .link

/-- A step from an item that is there puts out the same in both trees, and leaves the same
before what was pending but for idle items. -/
theorem step_hides (h : selection.Hides first second front name content) {item : Pending}
    (hsure : Sure first item) (root : Path) (faults : List WalkFault) :
    ∃ found items padded met, Padded selection items padded ∧
      (∀ item ∈ items, Sure first item) ∧
      (∀ pending, step first ⟨root, selection, item :: pending, faults⟩
        = some (found, ⟨root, selection, items ++ pending, met⟩)) ∧
      ∀ pending, step second ⟨root, selection, item :: pending, faults⟩
        = some (found, ⟨root, selection, padded ++ pending, met⟩) := by
  have htwins := reach_hides h hsure
  generalize hfirst : reach first item = one at htwins
  generalize hsecond : reach second item = other at htwins
  cases htwins with
  | fault fault =>
    refine ⟨none, [], [], faults ++ [fault], .nil, nofun, ?_, ?_⟩
    · intro pending
      simp only [step, hfirst, List.nil_append]
    · intro pending
      simp only [step, hsecond, List.nil_append]
  | @reached path kind items padded hthere hpadded hitems =>
    have hfile := featureFile?_grows h.toGrows hthere selection
    cases hignored : selection.ignores root path with
    | false =>
      refine ⟨featureFile? first selection path, items, padded, faults, hpadded, hitems, ?_, ?_⟩
      · intro pending
        simp only [step, hfirst, hignored, Bool.false_eq_true, if_false]
      · intro pending
        simp only [step, hsecond, hignored, hfile, Bool.false_eq_true, if_false]
    | true =>
      by_cases hkind : kind = .folder
      · refine ⟨none, [], [], faults, .nil, nofun, ?_, ?_⟩
        · intro pending
          simp only [step, hfirst, hignored, if_true, if_pos hkind]
        · intro pending
          simp only [step, hsecond, hignored, if_true, if_pos hkind]
      · refine ⟨none, items, padded, faults, hpadded, hitems, ?_, ?_⟩
        · intro pending
          simp only [step, hfirst, hignored, if_true, if_neg hkind]
        · intro pending
          simp only [step, hsecond, hignored, if_true, if_neg hkind]

/-! ## Runs -/

/-- Idle items in front are passed, so that the walk goes on with the first item of the list
that was padded, or is at its end. -/
theorem leads_idle (tree : FileTree) {items padded : List Pending}
    (hpadded : Padded selection items padded) (root : Path) (faults : List WalkFault) :
    (items = [] ∧ ∃ steps, Leads tree steps ⟨root, selection, padded, faults⟩ []
        ⟨root, selection, [], faults⟩) ∨
      ∃ item rest further, items = item :: rest ∧ Padded selection rest further ∧
        ∃ steps, Leads tree steps ⟨root, selection, padded, faults⟩ []
          ⟨root, selection, item :: further, faults⟩ := by
  induction hpadded with
  | nil => exact Or.inl ⟨rfl, 0, .refl tree _⟩
  | @keep item rest further hrest _ =>
    exact Or.inr ⟨item, rest, further, rfl, hrest, 0, .refl tree _⟩
  | @idle item items padded hidle _ ih =>
    have hstep := Leads.step (step_idle tree hidle root padded faults)
    rcases ih with ⟨hnil, steps, hleads⟩ | ⟨next, rest, further, hitems, hrest, steps, hleads⟩
    · exact Or.inl ⟨hnil, 1 + steps, hstep.trans hleads⟩
    · exact Or.inr ⟨next, rest, further, hitems, hrest, 1 + steps, hstep.trans hleads⟩

/-- What a walk comes to in the first tree, it comes to in the second one from the padded
items. -/
theorem leads_hides (h : selection.Hides first second front name content) {root : Path}
    {steps : Nat} {items padded : List Pending} {faults met : List WalkFault}
    {files : List FeatureFile} (hpadded : Padded selection items padded)
    (hsure : ∀ item ∈ items, Sure first item)
    (hdrain : drainWithin first steps ⟨root, selection, items, faults⟩
      = (files, ⟨root, selection, [], met⟩)) :
    ∃ ahead, Leads second ahead ⟨root, selection, padded, faults⟩ files
      ⟨root, selection, [], met⟩ := by
  induction steps generalizing items padded faults files with
  | zero =>
    cases hdrain
    rcases leads_idle second hpadded root _ with ⟨_, steps, hleads⟩ | ⟨_, _, _, hitems, _⟩
    · exact ⟨steps, hleads⟩
    · cases hitems
  | succ steps ih =>
    rcases leads_idle second hpadded root faults with
      ⟨rfl, ahead, hleads⟩ | ⟨item, rest, further, rfl, hrest, ahead, hleads⟩
    · have hend : step first ⟨root, selection, [], faults⟩ = none := rfl
      rw [drainWithin, hend] at hdrain
      cases hdrain
      exact ⟨ahead, hleads⟩
    · obtain ⟨found, items, padded, met, hbelow, hitems, hfirst, hsecond⟩ :=
        step_hides h (hsure item List.mem_cons_self) root faults
      rw [drainWithin, hfirst] at hdrain
      have hboth : ∀ one ∈ items ++ rest, Sure first one := by
        intro one hone
        rcases List.mem_append.1 hone with hone | hone
        · exact hitems one hone
        · exact hsure one (List.mem_cons_of_mem item hone)
      cases hmore : drainWithin first steps ⟨root, selection, items ++ rest, met⟩ with
      | mk more last =>
        simp only [hmore] at hdrain
        cases hdrain
        obtain ⟨onward, hrun⟩ := ih (hbelow.append hrest) hboth hmore
        exact ⟨_, (hleads.trans (Leads.step (hsecond further))).trans hrun⟩

/-- A walk whose root is there yields the same files in both trees, and meets the same
faults. -/
theorem drain_hides (h : selection.Hides first second front name content) {root : Path}
    (hsure : Sure first (.root root)) :
    (start root selection).drain second = (start root selection).drain first := by
  obtain ⟨steps, files, met, _, hdrain⟩ := drainWithin_eq_end first (start root selection)
  have hroot : ∀ item ∈ [Pending.root root], Sure first item := by
    intro item hitem
    rw [List.mem_singleton.1 hitem]
    exact hsure
  obtain ⟨ahead, hleads⟩ := leads_hides h (.refl selection [.root root]) hroot hdrain
  have hrun : (start root selection).drainWithin second ahead
      = (files, ⟨root, selection, [], met⟩) := by
    have hall := hleads 0
    rw [Nat.add_zero, drainWithin, List.append_nil] at hall
    exact hall
  have hfirst : ((start root selection).drainWithin first steps).2.pending = [] := by rw [hdrain]
  have hsecond : ((start root selection).drainWithin second ahead).2.pending = [] := by rw [hrun]
  rw [drain_of_pending_nil hfirst, drain_of_pending_nil hsecond, hdrain, hrun]
  rfl

end Walk

end FeatureDigest
