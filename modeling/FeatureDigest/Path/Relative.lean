import FeatureDigest.Path.Basic

/-!
# Relative paths

What is left of a path after the components of a base path it starts with.  The
rest keeps its spelling, less the fillers at its two ends.
-/

set_option autoImplicit false

namespace FeatureDigest

/-- The spelling after its first `count` components. -/
def Spelling.after (spelling : Spelling) : (count : Nat) → Spelling
  | 0 => spelling.trimmed
  | count + 1 =>
    let body := if spelling.rooted then spelling.pieces else spelling.pieces.tail
    ⟨false, dropTrailingFillers ((dropPieces count body).dropWhile isFiller)⟩

namespace Path

/-- The path relative to `base`, when its components start with those of `base`. -/
def relativeTo? (path base : Path) : Option Path :=
  if path.startsWith base then
    some (ofSpelling (path.spelling.after base.components.length))
  else none

/-- The path relative to `base`, or the path itself when it lies elsewhere. -/
def relativeTo (path base : Path) : Path := (path.relativeTo? base).getD path

end Path

end FeatureDigest
