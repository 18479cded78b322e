import FeatureDigest.Proofs.Scan.Ending
import FeatureDigest.Proofs.Scan.Frontier
import FeatureDigest.Proofs.Scan.Yield

/-!
# Walks through a changing tree

Between two calls of a walk the tree may change in any way, below the root and elsewhere.
What the walk still holds was listed in trees that are gone by then.  Even so its calls go
forward (`calls_forward`): each file that they give is found at a place behind those before
it, is not left out, and is read from the tree of its own call; and a walk that has come to
its end stays there.
-/

set_option autoImplicit false

namespace FeatureDigest.Walk

/-! ## Calls and changes -/

/-- What happens while a walk is under way. -/
inductive Event
  /-- The next feature file is asked for. -/
  | call
  /-- The tree becomes another one. -/
  | change (tree : FileTree)

/-- A call for the next feature file: the tree that it is made in, and the walk before it. -/
structure Call where
  tree : FileTree
  walk : Walk

namespace Call

/-- The feature file that a call gives, if any. -/
def file? (call : Call) : Option FeatureFile := (call.walk.next call.tree).1

/-- The walk after a call. -/
def after (call : Call) : Walk := (call.walk.next call.tree).2

end Call

/-- The calls among some events, from a tree and a walk on. -/
def calls : FileTree → Walk → List Event → List Call
  | _, _, [] => []
  | tree, walk, .call :: events => ⟨tree, walk⟩ :: calls tree (walk.next tree).2 events
  | _, walk, .change tree :: events => calls tree walk events

/-- The steps of a walk lead to a pending item that is reached under a path and puts out a
file.  The steps before put out nothing. -/
inductive Finds (tree : FileTree) (path : Path) (file : FeatureFile) (after : Walk) :
    Walk → Prop
  | here {walk : Walk} {item : Pending} {pending : List Pending}
      (first : walk.pending = item :: pending) (reached : item.path? = some path)
      (puts : walk.step tree = some (some file, after)) : Finds tree path file after walk
  | onward {walk middle : Walk} (silent : walk.step tree = some (none, middle))
      (rest : Finds tree path file after middle) : Finds tree path file after walk

/-- What a feature file says of the tree that it was found in under a path.  Its own path
leads to the same file as the walked one and its lines are those of the content; only where
the file has no canonical path, because a node is too far from the top, and its absolute path
is too long, this path leads nowhere and there are no lines. -/
inductive Tells (tree : FileTree) (path : Path) : FeatureFile → Prop
  | read {target : Place} {content : ByteArray} {file : FeatureFile}
      (walked : tree.find .target path = .ok (target, .file content))
      (found : tree.find .target file.path = .ok (target, .file content))
      (lines : file.lines = contentLines content) : Tells tree path file
  | unread {target : Place} {content : ByteArray}
      (walked : tree.find .target path = .ok (target, .file content))
      (missed : tree.canonical path = .error .nameTooLong) (far : tree.HasFarNode)
      (long : maxPathBytes ≤ (tree.absolute path).text.utf8ByteSize) :
      Tells tree path ⟨tree.absolute path, []⟩

/-- A call gives a file that it finds at a place below the root. -/
structure Call.Yields (call : Call) (selection : Selection) (root : Path) (place : Place)
    (file : FeatureFile) : Prop where
  given : call.file? = some file
  walked : Finds call.tree (root.under place) file call.after call.walk
  clear : selection.ignores root (root.under place) = false
  tells : Tells call.tree (root.under place) file

variable {tree : FileTree} {selection : Selection} {root : Path} {walk after : Walk}
  {places : List Place} {file : FeatureFile}

/-! ## One call -/

theorem Call.of_next {given : Option FeatureFile} (h : walk.next tree = (given, after)) :
    (⟨tree, walk⟩ : Call).file? = given ∧ (⟨tree, walk⟩ : Call).after = after :=
  ⟨congrArg Prod.fst h, congrArg Prod.snd h⟩

theorem tells_of_featureFile? {path : Path}
    (h : featureFile? tree selection path = some file) : Tells tree path file := by
  obtain ⟨target, content, hfind, hpresents⟩ := presents_of_featureFile? h
  cases hpresents with
  | canonical hcanonical =>
    rcases FileTree.canonical_cases hfind with hfound | ⟨hmissed, _⟩
    · exact .read hfind (FileTree.find_of_canonical hfound) rfl
    · rw [FileTree.canonical, hmissed] at hcanonical
      cases hcanonical
  | absolute hmissed hfar hshort =>
    exact .read hfind (FileTree.find_absolute hfind hshort) rfl
  | unread hmissed hfar hlong => exact .unread hfind hmissed hfar hlong

/-- A call that gives a file leaves what is pending in order, behind the place of the file
and below what was pending before. -/
theorem nextWithin_lined {steps : Nat} (hlined : Lined root selection walk places)
    (hnext : walk.nextWithin tree steps = (some file, after)) :
    ∃ place onward, Finds tree (root.under place) file after walk ∧
      selection.ignores root (root.under place) = false ∧
      featureFile? tree selection (root.under place) = some file ∧
      (∃ front ∈ places, front <+: place) ∧
      Lined root selection after onward ∧
      ∀ later ∈ onward, place.Before later ∧ ∃ front ∈ places, front <+: later := by
  induction steps generalizing walk places with
  | zero => cases hnext
  | succ steps ih =>
    rw [nextWithin] at hnext
    split at hnext
    · cases hnext
    · rename_i found middle hstep
      cases hnext
      obtain ⟨onward, hafter, hbelow, hfound⟩ := step_lined hlined hstep
      obtain ⟨item, pending, place, hplace, hpending, hpath, hclear, hyields, hbefore⟩ :=
        hfound file rfl
      refine ⟨place, onward, .here hpending hpath hstep, hclear, hyields,
        ⟨place, hplace, List.prefix_rfl⟩, hafter, ?_⟩
      intro later hlater
      exact ⟨hbefore later hlater, hbelow later hlater⟩
    · rename_i middle hstep
      obtain ⟨between, hmiddle, hbelow, _⟩ := step_lined hlined hstep
      have hlift {place : Place} (h : ∃ front ∈ between, front <+: place) :
          ∃ front ∈ places, front <+: place := by
        obtain ⟨front, hfront, hprefix⟩ := h
        obtain ⟨first, hfirst, hup⟩ := hbelow front hfront
        exact ⟨first, hfirst, hup.trans hprefix⟩
      obtain ⟨place, onward, hfinds, hclear, hyields, hplace, hafter, hlater⟩ :=
        ih hmiddle hnext
      refine ⟨place, onward, .onward hstep hfinds, hclear, hyields, hlift hplace, hafter, ?_⟩
      intro later hmem
      exact ⟨(hlater later hmem).1, hlift (hlater later hmem).2⟩

/-- Faults are only ever added. -/
theorem skipped_le_nextWithin (tree : FileTree) (steps : Nat) (walk : Walk) :
    walk.skipped ≤ (walk.nextWithin tree steps).2.skipped := by
  induction steps generalizing walk with
  | zero => exact Nat.le_refl _
  | succ steps ih =>
    have hstep {found : Option FeatureFile} {middle : Walk}
        (h : walk.step tree = some (found, middle)) : walk.skipped ≤ middle.skipped := by
      obtain ⟨_, _, _, met, _, rfl, _⟩ := step_cases h
      rw [skipped, skipped, List.length_append]
      exact Nat.le_add_right _ _
    rw [nextWithin]
    split
    · exact Nat.le_refl _
    · rename_i h
      exact hstep h
    · rename_i middle h
      exact Nat.le_trans (hstep h) (ih middle)

theorem next_of_pending_nil (tree : FileTree) (h : walk.pending = []) :
    walk.next tree = (none, walk) := by
  rw [next, enough, nextWithin, step_of_pending_nil h]

/-! ## All calls -/

theorem skipped_le_calls {events : List Event} {call : Call}
    (h : call ∈ calls tree walk events) : walk.skipped ≤ call.after.skipped := by
  induction events generalizing tree walk with
  | nil => cases h
  | cons event events ih =>
    cases event with
    | change other => exact ih h
    | call =>
      have hnext := skipped_le_nextWithin tree (walk.enough tree) walk
      rcases List.mem_cons.1 h with rfl | h
      · exact hnext
      · exact Nat.le_trans hnext (ih h)

/-- A walk that has come to its end stays there, whatever the tree becomes. -/
theorem calls_of_pending_nil (hend : walk.pending = []) {events : List Event} {call : Call}
    (h : call ∈ calls tree walk events) : call.file? = none ∧ call.after = walk := by
  induction events generalizing tree with
  | nil => cases h
  | cons event events ih =>
    cases event with
    | change other => exact ih h
    | call =>
      have hnext := next_of_pending_nil tree hend
      rw [calls, hnext] at h
      rcases List.mem_cons.1 h with rfl | h
      · exact Call.of_next hnext
      · exact ih h

theorem Call.pending_after (call : Call) (h : call.file? = none) : call.after.pending = [] :=
  pending_of_next (Prod.ext h rfl : call.walk.next call.tree = (none, call.after))

theorem pairwise_calls (tree : FileTree) (walk : Walk) (events : List Event) :
    (calls tree walk events).Pairwise fun call later =>
      call.after.skipped ≤ later.after.skipped ∧
        (call.file? = none → later.file? = none ∧ later.after = call.after) := by
  induction events generalizing tree walk with
  | nil => exact .nil
  | cons event events ih =>
    cases event with
    | change other => exact ih other walk
    | call =>
      refine List.pairwise_cons.2 ⟨?_, ih tree _⟩
      intro later hlater
      refine ⟨skipped_le_calls hlater, ?_⟩
      intro hnone
      exact calls_of_pending_nil (Call.pending_after _ hnone) hlater

/-- The files that some calls give are found at places in ascending order, below given
ones. -/
def Forward (selection : Selection) (root : Path) (places : List Place) (made : List Call) :
    Prop :=
  ∃ found : List (Place × Call),
    found.map Prod.snd = made.filter (fun call => call.file?.isSome) ∧
    (found.map Prod.fst).Pairwise Place.Before ∧
    ∀ place call, (place, call) ∈ found →
      (∃ front ∈ places, front <+: place) ∧ ∃ file, call.Yields selection root place file

theorem forward_of_none {made : List Call} (h : ∀ call ∈ made, call.file? = none) :
    Forward selection root places made := by
  have hnone : made.filter (fun call => call.file?.isSome) = [] := by
    apply List.filter_eq_nil_iff.2
    intro call hcall
    rw [h call hcall]
    exact Bool.false_ne_true
  exact ⟨[], hnone.symm, .nil, nofun⟩

/-- A call that gives a file comes before calls that go forward behind its place. -/
theorem Forward.cons {call : Call} {made : List Call} {place : Place} {onward : List Place}
    (hmade : Forward selection root onward made)
    (hyields : call.Yields selection root place file) (hplace : ∃ front ∈ places, front <+: place)
    (honward : ∀ later ∈ onward, place.Before later ∧ ∃ front ∈ places, front <+: later) :
    Forward selection root places (call :: made) := by
  obtain ⟨found, hcalls, horder, hfound⟩ := hmade
  refine ⟨(place, call) :: found, ?_, ?_, ?_⟩
  · rw [List.filter_cons, hyields.given, Option.isSome_some, if_pos rfl, ← hcalls,
      List.map_cons]
  · refine List.pairwise_cons.2 ⟨?_, horder⟩
    intro later hlater
    obtain ⟨⟨later, other⟩, hmem, rfl⟩ := List.mem_map.1 hlater
    obtain ⟨⟨front, hfront, more, hprefix⟩, _⟩ := hfound later other hmem
    rw [← hprefix]
    exact (honward front hfront).1.append more
  · intro later other hmem
    rcases List.mem_cons.1 hmem with heq | hmem
    · cases heq
      exact ⟨hplace, file, hyields⟩
    · obtain ⟨⟨front, hfront, hprefix⟩, hfile⟩ := hfound later other hmem
      obtain ⟨first, hfirst, hup⟩ := (honward front hfront).2
      exact ⟨⟨first, hfirst, hup.trans hprefix⟩, hfile⟩

/-- The calls of a walk go forward below what is pending.  The induction is on the events;
what is pending is known by the places it stands for, in whatever tree it was listed. -/
theorem forward_calls (hlined : Lined root selection walk places) (tree : FileTree)
    (events : List Event) : Forward selection root places (calls tree walk events) := by
  induction events generalizing tree walk places with
  | nil => exact forward_of_none nofun
  | cons event events ih =>
    cases event with
    | change other => exact ih hlined other
    | call =>
      cases hnext : walk.next tree with
      | mk given after =>
        obtain ⟨hgiven, hafter⟩ := Call.of_next hnext
        rw [calls, hnext]
        cases given with
        | none =>
          apply forward_of_none
          intro call hcall
          rcases List.mem_cons.1 hcall with rfl | hcall
          · exact hgiven
          · exact (calls_of_pending_nil (pending_of_next hnext) hcall).1
        | some file =>
          obtain ⟨place, onward, hfinds, hclear, hfile, hplace, hlined, honward⟩ :=
            nextWithin_lined hlined hnext
          have hyields : (⟨tree, walk⟩ : Call).Yields selection root place file :=
            ⟨hgiven, hafter ▸ hfinds, hclear, tells_of_featureFile? hfile⟩
          exact (ih hlined tree).cons hyields hplace honward

/-- The name of a folder that changes. -/
def changingName : FileName := ⟨['m'], by decide⟩

/-- A folder with a file and with another folder, which holds a file as well. -/
def listedTree : FileTree :=
  ⟨[(specsName, .folder
    [(⟨['k', '.', 'f'], by decide⟩, .file "Given x".toUTF8),
      (changingName, .folder [(⟨['e', '.', 'f'], by decide⟩, .file "Then y".toUTF8)])])], []⟩

/-- The folder without its own file, and with another file in the folder below. -/
def editedTree : FileTree :=
  ⟨[(specsName, .folder
    [(changingName, .folder [(⟨['u', '.', 'f'], by decide⟩, .file "When w".toUTF8)])])], []⟩

/-- The folder changes after the first call, vanishes after the second one and is back after
the third one. -/
def editedEvents : List Event :=
  [.call, .change editedTree, .call, .change ⟨[], []⟩, .call, .change listedTree, .call]

/-- A root that is a feature file and is not left out is what the first call gives. -/
theorem next_of_file {place : Place} {content : ByteArray}
    (hroot : tree.find .entry root = .ok (place, .file content))
    (hclear : selection.ignores root root = false)
    (hfile : featureFile? tree selection root = some file) :
    (start root selection).next tree = (some file, ⟨root, selection, [], []⟩) := by
  have hreach : reach tree (.root root) = .ok ⟨root, .file, []⟩ :=
    reach_root hroot (by exact nofun)
  have hstep : (start root selection).step tree
      = some (some file, ⟨root, selection, [], []⟩) := by
    simp only [step, start, hreach, hclear, hfile, Bool.false_eq_true, if_false,
      List.nil_append]
  rw [next, enough, nextWithin, hstep]

end FeatureDigest.Walk
