import FeatureDigest.FileTree.Access
import FeatureDigest.Scan.FeatureFile
import FeatureDigest.Scan.Selection
import FeatureDigest.Text.Lines

/-!
# Walks

A walk looks for feature files below a root, the entries of a folder in the order
of their names and each before what is below it.  It keeps what it has still to
reach, and looks at nothing before it reaches it: the tree may change between two
calls.  A root that is a link is followed, links below it are not.

Paths that cannot be accessed are kept as the faults of the walk.  A folder counts
among them right after its own entry when it cannot be listed.
-/

set_option autoImplicit false

namespace FeatureDigest

/-- A path that could not be accessed, and why. -/
structure WalkFault where
  path : Path
  cause : AccessFault
  deriving DecidableEq, Repr

/-- What a walk has still to reach. -/
inductive Pending
  /-- The root, which was not looked at yet. -/
  | root (path : Path)
  /-- An entry, with the kind that it was listed with. -/
  | entry (path : Path) (kind : Node.Kind)
  /-- A folder that could not be listed. -/
  | fault (fault : WalkFault)
  deriving DecidableEq, Repr

/-- A path that a walk has reached, with the kind that it was listed with and what
is to be reached next below it. -/
structure Reached where
  path : Path
  kind : Node.Kind
  below : List Pending
  deriving Repr

/-- A walk under way. -/
structure Walk where
  root : Path
  selection : Selection
  /-- What is still to be reached, in order. -/
  pending : List Pending
  /-- The faults met so far, in order. -/
  faults : List WalkFault
  deriving Repr

namespace Walk

/-- The walk from a root, before its first step. -/
def start (root : Path) (selection : Selection) : Walk :=
  ⟨root, selection, [.root root], []⟩

/-- How many paths could not be accessed so far. -/
def skipped (walk : Walk) : Nat := walk.faults.length

/-- The entries of a folder, or the fault of listing it. -/
def below (tree : FileTree) (path : Path) : List Pending :=
  match tree.list path with
  | .ok entries =>
    entries.map fun entry => .entry (path.join ⟨String.ofList entry.1.piece⟩) entry.2
  | .error cause => [.fault ⟨path, cause⟩]

/-- What is reached with an entry of the given kind. -/
def reachEntry (tree : FileTree) (path : Path) : Node.Kind → Reached
  | .folder => ⟨path, .folder, below tree path⟩
  | kind => ⟨path, kind, []⟩

/-- What is reached with the root.  A link is followed, and what it leads to is
listed when it is a folder. -/
def reachRoot (tree : FileTree) (path : Path) : Except WalkFault Reached :=
  match tree.entryKind path with
  | .error cause => .error ⟨path, cause⟩
  | .ok .link =>
    match tree.targetKind path with
    | .error cause => .error ⟨path, cause⟩
    | .ok .folder => .ok ⟨path, .link, below tree path⟩
    | .ok _ => .ok ⟨path, .link, []⟩
  | .ok kind => .ok (reachEntry tree path kind)

/-- What is reached with a pending item. -/
def reach (tree : FileTree) : Pending → Except WalkFault Reached
  | .root path => reachRoot tree path
  | .entry path kind => .ok (reachEntry tree path kind)
  | .fault fault => .error fault

/-- The feature file that a path of a walk leads to, if it is one, under its canonical
path if there is one.  A content that cannot be read from there has no lines. -/
def featureFile? (tree : FileTree) (selection : Selection) (path : Path) :
    Option FeatureFile :=
  if path.hasExtension selection.extensions && tree.isFile path then
    let seen := tree.canonicalOrAbsolute path
    some ⟨seen, Text.lines (tree.textOrEmpty seen)⟩
  else none

/-- Reaches the next pending item: the feature file that it is, if it is one, and
the walk from there on; `none` at the end.  With a folder that is left out goes all
below it. -/
def step (tree : FileTree) (walk : Walk) : Option (Option FeatureFile × Walk) :=
  match walk.pending with
  | [] => none
  | item :: pending =>
    match reach tree item with
    | .error fault => some (none, { walk with pending, faults := walk.faults ++ [fault] })
    | .ok reached =>
      if walk.selection.ignores walk.root reached.path then
        let kept := if reached.kind = .folder then [] else reached.below
        some (none, { walk with pending := kept ++ pending })
      else
        some (featureFile? tree walk.selection reached.path,
          { walk with pending := reached.below ++ pending })

/-- A number of steps that leads to the end of the walk: a pending item leads to
each node of the tree once at most, and to one fault at most for each. -/
def enough (tree : FileTree) (walk : Walk) : Nat :=
  walk.pending.length * (2 * tree.size + 2) + 1

/-- The next feature file, within so many steps. -/
def nextWithin (tree : FileTree) : (steps : Nat) → Walk → Option FeatureFile × Walk
  | 0, walk => (none, walk)
  | steps + 1, walk =>
    match walk.step tree with
    | none => (none, walk)
    | some (some file, walk) => (some file, walk)
    | some (none, walk) => nextWithin tree steps walk

/-- The next feature file, or `none` at the end of the walk. -/
def next (tree : FileTree) (walk : Walk) : Option FeatureFile × Walk :=
  walk.nextWithin tree (walk.enough tree)

/-- The feature files of so many steps, in order. -/
def drainWithin (tree : FileTree) : (steps : Nat) → Walk → List FeatureFile × Walk
  | 0, walk => ([], walk)
  | steps + 1, walk =>
    match walk.step tree with
    | none => ([], walk)
    | some (found, walk) =>
      let (files, walk) := drainWithin tree steps walk
      (found.toList ++ files, walk)

/-- All feature files up to the end of the walk, in order. -/
def drain (tree : FileTree) (walk : Walk) : List FeatureFile × Walk :=
  walk.drainWithin tree (walk.enough tree)

end Walk

end FeatureDigest
