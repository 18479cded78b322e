import FeatureDigest.Path.Basic

/-!
# Ancestors of paths

A path and its parents, one component shorter each, up to the top or to the empty
path, which is the current folder.
-/

set_option autoImplicit false

namespace FeatureDigest.Path

/-- The path and so many of its parents at most. -/
def ancestorsWithin : (parents : Nat) → Path → List Path
  | 0, path => [path]
  | parents + 1, path =>
    match path.parent? with
    | some parent => path :: ancestorsWithin parents parent
    | none => [path]

/-- The path and all its parents, the nearest first.  There are no more parents
than the path has pieces. -/
def ancestors (path : Path) : List Path :=
  ancestorsWithin path.spelling.pieces.length path

end FeatureDigest.Path
