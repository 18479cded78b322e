import FeatureDigest.Path.Basic

/-!
# Feature files

A feature file as it was found: its path, and the lines of its content.
-/

set_option autoImplicit false

namespace FeatureDigest

/-- A feature file. -/
structure FeatureFile where
  path : Path
  /-- The lines of the content, without their line ends. -/
  lines : List String
  deriving DecidableEq, Repr, Inhabited

end FeatureDigest
