import FeatureDigest.FileTree.Node

/-!
# File trees

A file tree is what its top folder holds, seen from a current folder, which is
where relative paths start.  Looking something up can fail for the causes that are
listed here.
-/

set_option autoImplicit false

namespace FeatureDigest

/-- All files, and the folder in which relative paths start. -/
structure FileTree where
  /-- The entries of the top folder. -/
  entries : Entries
  /-- The place of the current folder. -/
  here : Place
  deriving Inhabited

/-- Why something in a file tree cannot be had. -/
inductive AccessFault
  | notFound
  | taken
  | notFolder
  | isFolder
  | nameTooLong
  | tooManyLinks
  | nulInPath
  | notText
  deriving DecidableEq, Repr, Inhabited

/-- The wording of an access fault. -/
def AccessFault.message : AccessFault → String
  | .notFound => "No such file or directory (os error 2)"
  | .taken => "File exists (os error 17)"
  | .notFolder => "Not a directory (os error 20)"
  | .isFolder => "Is a directory (os error 21)"
  | .nameTooLong => "File name too long (os error 36)"
  | .tooManyLinks => "Too many levels of symbolic links (os error 40)"
  | .nulInPath => "file name contained an unexpected NUL byte"
  | .notText => "stream did not contain valid UTF-8"

/-- The canonical path of a place. -/
def Path.ofPlace (place : Place) : Path := Path.ofPieces (place.map FileName.piece)

/-- The bytes of the canonical path of a place below the top. -/
def pathBytes : Place → Nat
  | [] => 0
  | name :: place => 1 + Text.byteCount name.piece + pathBytes place

namespace FileTree

/-- The tree with the given top folder, where its relative paths start. -/
def ofTop (top : Node) (here : Place) : FileTree := ⟨top.entries, here⟩

/-- The top folder. -/
def top (tree : FileTree) : Node := .folder tree.entries

/-- The node at a place. -/
def at? (tree : FileTree) (place : Place) : Option Node := tree.top.at? place

theorem at?_append (tree : FileTree) (first second : Place) :
    tree.at? (first ++ second) = (tree.at? first).bind fun node => node.at? second :=
  Node.at?_append tree.top first second

/-- The number of nodes of the tree. -/
def size (tree : FileTree) : Nat := tree.top.size

/-- The tree with a node put at a place. -/
def put (tree : FileTree) (place : Place) (node : Node) : FileTree :=
  ofTop (tree.top.put place node) tree.here

/-- What was put below the top is found. -/
theorem at?_put (tree : FileTree) {place : Place} (h : place ≠ []) (node : Node) :
    (tree.put place node).at? place = some node := by
  obtain ⟨name, rest, rfl⟩ := List.exists_cons_of_ne_nil h
  exact Node.at?_put tree.top (name :: rest) node

/-- The tree without what is at a place. -/
def remove (tree : FileTree) (place : Place) : FileTree :=
  ofTop (tree.top.remove place) tree.here

end FileTree

end FeatureDigest
