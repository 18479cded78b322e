import FeatureDigest.FileTree.Access
import FeatureDigest.Path.Ancestors

/-!
# Edits of a file tree

Changes that are made to a tree from outside: a file saved, a folder made, a link
set, an entry deleted.  Folders that lead to a new entry are made as needed, one
after the other, so that a path may leave a folder by `..` that it made before.  An
edit that cannot be made says why and gives no tree.
-/

set_option autoImplicit false

namespace FeatureDigest.FileTree

/-- The place that a path gives to an entry, whether there is one or not, in a folder
that has to be there.  A path that ends in `.` or `..` and the path of the top name a
folder that is there already, so they give no place to an entry. -/
def entryPlace (tree : FileTree) (path : Path) : Except AccessFault Place :=
  match tree.outset .entry path with
  | .error fault => .error fault
  | .ok (place, pieces) =>
    let named := pieces.filter fun piece => piece ≠ []
    match tree.follow .target maxLinks place (named.dropLast ++ [[]]), named.getLast? with
    | .error fault, _ => .error fault
    | .ok _, none => .error .taken
    | .ok folder, some piece =>
      if maxNameBytes < Text.byteCount piece then .error .nameTooLong
      else
        match FileName.ofPiece? piece with
        | none => .error .taken
        | some name => .ok (folder ++ [name])

/-! ## Folders -/

/-- The tree with a new folder in a folder that is there. -/
def addFolder (tree : FileTree) (path : Path) : Except AccessFault FileTree :=
  match tree.entryPlace path with
  | .error fault => .error fault
  | .ok place =>
    match tree.at? place with
    | some _ => .error .taken
    | none => .ok (tree.put place (.folder []))

/-- The tree with a folder that a path leads to: the one that is there, or a new one in
a folder that is there. -/
def ensureFolder (tree : FileTree) (path : Path) : Except AccessFault FileTree :=
  match tree.addFolder path with
  | .ok made => .ok made
  | .error fault =>
    match tree.targetKind path with
    | .ok .folder => .ok tree
    | _ => .error fault

/-- The tree with the folder of the first of some paths, which is followed by its
parents: only when there is nothing to hold the folder, its parent is made first. -/
def ensureFirst (tree : FileTree) : List Path → Except AccessFault FileTree
  | [] => .ok tree
  | path :: parents =>
    if path.text.isEmpty then .ok tree
    else
      match tree.ensureFolder path with
      | .ok made => .ok made
      | .error .notFound =>
        match tree.ensureFirst parents with
        | .ok ready => ready.ensureFolder path
        | .error fault => .error fault
      | .error fault => .error fault

/-- The tree with a folder that a path leads to, and the folders on the way to it. -/
def makeFolder (tree : FileTree) (path : Path) : Except AccessFault FileTree :=
  tree.ensureFirst path.ancestors

/-- The tree with the folder that is to hold what a path names. -/
def makeParent (tree : FileTree) (path : Path) : Except AccessFault FileTree :=
  match path.parent? with
  | some parent => tree.makeFolder parent
  | none => .ok tree

/-! ## Entries -/

/-- The tree after a file was saved under a path. -/
def save (tree : FileTree) (path : Path) (content : ByteArray) :
    Except AccessFault FileTree :=
  match tree.makeParent path with
  | .error fault => .error fault
  | .ok ready => ready.write path content

/-- The tree after a link was set, in place of a file or a link if there is one.  The
target need not be there, but it has to be a path that can be followed. -/
def setLink (tree : FileTree) (path target : Path) : Except AccessFault FileTree :=
  match tree.makeParent path with
  | .error fault => .error fault
  | .ok ready =>
    match ready.outset .target target, ready.entryPlace path with
    | .error fault, _ => .error fault
    | .ok _, .error fault => .error fault
    | .ok _, .ok place =>
      match ready.at? place, path.spelling.pieces.getLast? with
      | some (.folder _), _ => .error .taken
      | _, some [] => .error .notFound
      | _, _ => .ok (ready.put place (.link target))

/-- The tree after an entry was deleted, with all below it. -/
def delete (tree : FileTree) (path : Path) : Except AccessFault FileTree :=
  match tree.find .entry path with
  | .error fault => .error fault
  | .ok (place, _) => .ok (tree.remove place)

end FeatureDigest.FileTree
