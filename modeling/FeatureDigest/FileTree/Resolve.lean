import FeatureDigest.FileTree.Basic

/-!
# Following paths

A path is followed piece by piece from the top or from the current folder.  Every
piece needs a folder to be looked up in; `.` and empty pieces stay there, `..` goes
to the parent, and a symbolic link is followed in place of the piece that named it.
A slash at the end leaves one empty piece, so that the path names a folder.
-/

set_option autoImplicit false

namespace FeatureDigest

/-- The most bytes of a path, with one for its end. -/
def maxPathBytes : Nat := 4096

/-- The most links that are followed for one path. -/
def maxLinks : Nat := 40

/-- What a path is followed for. -/
inductive Aim
  /-- What the path leads to in the end. -/
  | target
  /-- The canonical path of what the path leads to.  Every place on the way is looked
  up under its own canonical path, which has to be short enough. -/
  | canonical
  /-- The entry itself, even when it is a link. -/
  | entry
  /-- A file that may have to be made first. -/
  | creation
  deriving DecidableEq, Repr

/-- Where a path stops: at a place, or at a link with the pieces that follow it. -/
inductive Stop
  | place (place : Place)
  | link (folder : Place) (target : Path) (pieces : List Piece)

namespace Path

/-- The pieces to be followed: those that are not empty, and an empty one when the
path ends with a slash. -/
def steps (path : Path) : List Piece :=
  let pieces := path.spelling.pieces
  pieces.filter (fun piece => piece ≠ [])
    ++ (if pieces.getLast? = some [] then [[]] else [])

end Path

namespace FileTree

/-- Where following a path starts, and the pieces to follow. -/
def start (folder : Place) (path : Path) : Except AccessFault (Place × List Piece) :=
  if path.text.isEmpty then .error .notFound
  else .ok (if path.isAbsolute then [] else folder, path.steps)

/-- Follows pieces from a place, up to their end or to a link that has to be followed.
The place is known by the names that lead up from it to the top and by its node, so
that one more piece takes one more look into one folder. -/
def advanceFrom (tree : FileTree) (aim : Aim) :
    (trail : Place) → (node : Option Node) → List Piece → Except AccessFault Stop
  | trail, _, [] => .ok (.place trail.reverse)
  | trail, node, piece :: pieces =>
    match node with
    | none => .error .notFound
    | some (.file _) => .error .notFolder
    | some (.link _) => .error .notFolder
    | some (.folder entries) =>
      if isFiller piece then tree.advanceFrom aim trail (some (.folder entries)) pieces
      else if piece = ['.', '.'] then
        tree.advanceFrom aim trail.tail (tree.at? trail.tail.reverse) pieces
      else if aim = .creation ∧ pieces = [[]] then .error .isFolder
      else if maxNameBytes < Text.byteCount piece then .error .nameTooLong
      else
        match FileName.ofPiece? piece with
        | none => .error .notFound
        | some name =>
          if aim = .canonical ∧ maxPathBytes ≤ pathBytes (trail.reverse ++ [name]) then
            .error .nameTooLong
          else
            match Entries.find? name entries with
            | none =>
              if aim = .creation ∧ pieces = [] then .ok (.place (trail.reverse ++ [name]))
              else .error .notFound
            | some (.link target) =>
              if aim = .entry ∧ pieces = [] then .ok (.place (trail.reverse ++ [name]))
              else .ok (.link trail.reverse target pieces)
            | some (.file content) =>
              tree.advanceFrom aim (name :: trail) (some (.file content)) pieces
            | some (.folder below) =>
              tree.advanceFrom aim (name :: trail) (some (.folder below)) pieces

/-- Follows pieces from a place, up to their end or to a link that has to be
followed. -/
def advance (tree : FileTree) (aim : Aim) (place : Place) (pieces : List Piece) :
    Except AccessFault Stop :=
  tree.advanceFrom aim place.reverse (tree.at? place) pieces

@[simp] theorem advance_nil (tree : FileTree) (aim : Aim) (place : Place) :
    tree.advance aim place [] = .ok (.place place) := by
  simp [advance, advanceFrom]

/-- What one piece does, with the place looked up from the top. -/
theorem advance_cons (tree : FileTree) (aim : Aim) (place : Place) (piece : Piece)
    (pieces : List Piece) :
    tree.advance aim place (piece :: pieces) =
      match tree.at? place with
      | none => .error .notFound
      | some (.file _) => .error .notFolder
      | some (.link _) => .error .notFolder
      | some (.folder entries) =>
        if isFiller piece then tree.advance aim place pieces
        else if piece = ['.', '.'] then tree.advance aim place.dropLast pieces
        else if aim = .creation ∧ pieces = [[]] then .error .isFolder
        else if maxNameBytes < Text.byteCount piece then .error .nameTooLong
        else
          match FileName.ofPiece? piece with
          | none => .error .notFound
          | some name =>
            if aim = .canonical ∧ maxPathBytes ≤ pathBytes (place ++ [name]) then
              .error .nameTooLong
            else
              match Entries.find? name entries with
              | none =>
                if aim = .creation ∧ pieces = [] then .ok (.place (place ++ [name]))
                else .error .notFound
              | some (.link target) =>
                if aim = .entry ∧ pieces = [] then .ok (.place (place ++ [name]))
                else .ok (.link place target pieces)
              | some _ => tree.advance aim (place ++ [name]) pieces := by
  unfold advance
  cases hat : tree.at? place with
  | none => rfl
  | some node =>
    cases node with
    | file content => rfl
    | link target => rfl
    | folder entries =>
      have hchild (name : FileName) :
          tree.at? (place ++ [name]) = Entries.find? name entries := by
        rw [at?_append, hat]
        cases h : Entries.find? name entries <;> simp [Node.at?, Node.entries, h]
      simp only [advanceFrom, List.reverse_reverse, List.tail_reverse, List.reverse_append,
        List.reverse_cons, List.reverse_nil, List.nil_append, List.cons_append, hchild]
      repeat' split
      all_goals simp_all

/-- Follows pieces from a place to their end, through so many links at most. -/
def follow (tree : FileTree) (aim : Aim) :
    (links : Nat) → (place : Place) → List Piece → Except AccessFault Place
  | 0, place, pieces =>
    match tree.advance aim place pieces with
    | .error fault => .error fault
    | .ok (.place place) => .ok place
    | .ok (.link ..) => .error .tooManyLinks
  | links + 1, place, pieces =>
    match tree.advance aim place pieces with
    | .error fault => .error fault
    | .ok (.place place) => .ok place
    | .ok (.link folder target rest) =>
      match start folder target with
      | .error fault => .error fault
      | .ok (place, pieces) => tree.follow aim links place (pieces ++ rest)

/-- Where following a path starts, and the pieces to follow, when the path can be
followed at all.  A canonical path is worked out piece by piece, so the path itself may
be of any length then. -/
def outset (tree : FileTree) (aim : Aim) (path : Path) :
    Except AccessFault (Place × List Piece) :=
  if path.text.toList.contains '\x00' then .error .nulInPath
  else if aim ≠ .canonical ∧ maxPathBytes ≤ path.text.utf8ByteSize then .error .nameTooLong
  else start tree.here path

/-- The place that a path leads to. -/
def resolve (tree : FileTree) (aim : Aim) (path : Path) : Except AccessFault Place :=
  match tree.outset aim path with
  | .error fault => .error fault
  | .ok (place, pieces) => tree.follow aim maxLinks place pieces

end FileTree

end FeatureDigest
