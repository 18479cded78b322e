import FeatureDigest.FileTree.Resolve

/-!
# Access by path

What programs do with paths: look at what they lead to, list folders, read and
write files, and ask for the canonical path, which names the same file from the
top without links and `..`.  Every path can be spelled out from the top, but not
everything that a path leads to has a canonical path that is short enough.
-/

set_option autoImplicit false

namespace FeatureDigest.FileTree

/-- The place and the node that a path leads to. -/
def find (tree : FileTree) (aim : Aim) (path : Path) :
    Except AccessFault (Place × Node) :=
  match tree.resolve aim path with
  | .error fault => .error fault
  | .ok place =>
    match tree.at? place with
    | none => .error .notFound
    | some node => .ok (place, node)

/-- The kind of what a path leads to, links followed. -/
def targetKind (tree : FileTree) (path : Path) : Except AccessFault Node.Kind :=
  (tree.find .target path).map fun found => found.2.kind

/-- The kind of the entry that a path names. -/
def entryKind (tree : FileTree) (path : Path) : Except AccessFault Node.Kind :=
  (tree.find .entry path).map fun found => found.2.kind

/-- The path leads to something. -/
def reaches (tree : FileTree) (path : Path) : Bool := (tree.targetKind path).isOk

/-- The path leads to a file. -/
def isFile (tree : FileTree) (path : Path) : Bool :=
  match tree.targetKind path with
  | .ok .file => true
  | _ => false

/-- The names and kinds of the entries of a folder, in the order of the names. -/
def list (tree : FileTree) (path : Path) :
    Except AccessFault (List (FileName × Node.Kind)) :=
  match tree.find .target path with
  | .error fault => .error fault
  | .ok (_, .folder entries) => .ok (Entries.listing entries)
  | .ok _ => .error .notFolder

/-- The content of a file, which has to be UTF-8. -/
def readText (tree : FileTree) (path : Path) : Except AccessFault String :=
  match tree.find .target path with
  | .error fault => .error fault
  | .ok (_, .file content) =>
    match String.fromUTF8? content with
    | some text => .ok text
    | none => .error .notText
  | .ok _ => .error .isFolder

/-- The content of a file, or nothing when it cannot be read. -/
def textOrEmpty (tree : FileTree) (path : Path) : String :=
  match tree.readText path with
  | .ok text => text
  | .error _ => ""

/-- The canonical path of what a path leads to. -/
def canonical (tree : FileTree) (path : Path) : Except AccessFault Path :=
  (tree.find .canonical path).map fun found => Path.ofPlace found.1

/-- The path seen from the top, by its spelling alone: a relative path follows the
current folder, fillers vanish, and `..` and links stay.  Two slashes in front and a
slash at the end are kept. -/
def absolute (tree : FileTree) (path : Path) : Path :=
  let folder := if path.isAbsolute then [] else tree.here.map FileName.piece
  let pieces := path.spelling.pieces
  let ending := if pieces.getLast? = some [] then [[]] else []
  let spelled := folder ++ pieces.filter (fun piece => !isFiller piece)
  let seen := Path.ofPieces (if spelled.isEmpty then [] else spelled ++ ending)
  if path.hasTwoSlashes then ⟨"/" ++ seen.text⟩ else seen

/-- The canonical path of what a path leads to, or the path seen from the top when there
is none. -/
def canonicalOrAbsolute (tree : FileTree) (path : Path) : Path :=
  match tree.canonical path with
  | .ok canonical => canonical
  | .error _ => tree.absolute path

/-- The tree after a file was written, which is made if there is none.  A file that could be
opened is written whole: faults of the disk, such as one that is full, and of the streams are
not modelled. -/
def write (tree : FileTree) (path : Path) (content : ByteArray) :
    Except AccessFault FileTree :=
  match tree.resolve .creation path with
  | .error fault => .error fault
  | .ok place =>
    match tree.at? place with
    | some (.folder _) => .error .isFolder
    | _ => .ok (tree.put place (.file content))

/-- The tree with a folder as its current folder. -/
def enter (tree : FileTree) (path : Path) : Except AccessFault FileTree :=
  match tree.find .target path with
  | .error fault => .error fault
  | .ok (place, .folder _) => .ok { tree with here := place }
  | .ok _ => .error .notFolder

end FeatureDigest.FileTree
