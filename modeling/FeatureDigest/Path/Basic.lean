import FeatureDigest.Path.Spelling

/-!
# Paths

A path is kept as it is spelled.  Its components are what the spelling names:
the top of the tree, `.` where the path starts with it, `..`, and file names.
Joining and taking parents work on the spelling and never look at a file tree.
-/

set_option autoImplicit false

namespace FeatureDigest

/-- A path, as it is spelled. -/
structure Path where
  text : String
  deriving DecidableEq, Repr, Inhabited

/-- What one part of a path names. -/
inductive Component
  /-- The top of the file tree. -/
  | top
  /-- The `.` that a path may start with. -/
  | here
  /-- The parent directory, `..`. -/
  | up
  | name (name : Piece)
  deriving DecidableEq, Repr

/-- The component that a piece names, if it is no filler. -/
def Component.ofPiece? (piece : Piece) : Option Component :=
  if isFiller piece then none
  else if piece = ['.', '.'] then some .up
  else some (.name piece)

/-- The component that the first piece of a relative path names. -/
def Component.ofFirstPiece? (piece : Piece) : Option Component :=
  if piece = ['.'] then some .here else Component.ofPiece? piece

/-- A path taken apart: whether it starts with a slash, and the pieces after it. -/
structure Spelling where
  rooted : Bool
  pieces : List Piece
  deriving DecidableEq, Repr

namespace Spelling

/-- The spelling of a text. -/
def ofText : List Char → Spelling
  | '/' :: body => ⟨true, splitSlash body⟩
  | body => ⟨false, splitSlash body⟩

/-- The text of a spelling. -/
def text (spelling : Spelling) : List Char :=
  if spelling.rooted then '/' :: joinSlash spelling.pieces
  else joinSlash spelling.pieces

/-- The components that a spelling names. -/
def components (spelling : Spelling) : List Component :=
  if spelling.rooted then .top :: spelling.pieces.filterMap Component.ofPiece?
  else
    match spelling.pieces with
    | [] => []
    | first :: pieces =>
      (Component.ofFirstPiece? first).toList ++ pieces.filterMap Component.ofPiece?

/-- The spelling without the fillers it ends with. -/
def trimmed (spelling : Spelling) : Spelling :=
  if spelling.rooted then ⟨true, dropTrailingFillers spelling.pieces⟩
  else
    match spelling.pieces with
    | [] => ⟨false, []⟩
    | first :: pieces => ⟨false, first :: dropTrailingFillers pieces⟩

/-- The spelling without its last component, if it has one that can be left. -/
def parent? (spelling : Spelling) : Option Spelling :=
  if spelling.rooted then
    match dropTrailingFillers spelling.pieces with
    | [] => none
    | kept => some ⟨true, dropTrailingFillers kept.dropLast⟩
  else
    match spelling.pieces with
    | [] => none
    | first :: pieces =>
      match dropTrailingFillers pieces with
      | [] => if first = [] then none else some ⟨false, [[]]⟩
      | kept => some ⟨false, first :: dropTrailingFillers kept.dropLast⟩

@[simp] theorem text_ofText (text : List Char) : (ofText text).text = text := by
  unfold ofText
  split <;> simp [Spelling.text]

end Spelling

namespace Path

/-- The spelling of a path. -/
def spelling (path : Path) : Spelling := Spelling.ofText path.text.toList

/-- The path of a spelling. -/
def ofSpelling (spelling : Spelling) : Path := ⟨String.ofList spelling.text⟩

@[simp] theorem ofSpelling_spelling (path : Path) : ofSpelling path.spelling = path := by
  simp [ofSpelling, spelling]

/-- The components that a path names. -/
def components (path : Path) : List Component := path.spelling.components

/-- The path starts at the top of the file tree. -/
def isAbsolute (path : Path) : Bool := path.spelling.rooted

/-- The path starts with two slashes and no third one. -/
def hasTwoSlashes (path : Path) : Bool :=
  match path.text.toList with
  | '/' :: '/' :: c :: _ => c != '/'
  | ['/', '/'] => true
  | _ => false

/-- `child` seen from `base`: an absolute path stays as it is, and a relative one
follows the base after one slash. -/
def join (base child : Path) : Path :=
  if child.isAbsolute then child
  else if base.text.isEmpty || base.text.toList.getLast? = some '/' then
    ⟨base.text ++ child.text⟩
  else ⟨base.text ++ "/" ++ child.text⟩

/-- The path without its last component; `none` for the top and the empty path. -/
def parent? (path : Path) : Option Path := path.spelling.parent?.map ofSpelling

/-- The absolute path of the pieces that lead down from the top. -/
def ofPieces (pieces : List Piece) : Path :=
  ⟨String.ofList ('/' :: joinSlash pieces)⟩

/-- The last component, when it is a file name. -/
def fileName? (path : Path) : Option Piece :=
  match path.components.getLast? with
  | some (.name name) => some name
  | _ => none

/-- The components of `base` are the first components of the path. -/
def startsWith (path base : Path) : Bool := base.components.isPrefixOf path.components

end Path

end FeatureDigest
