import FeatureDigest.Config.Ignores
import FeatureDigest.Path.Extension
import FeatureDigest.Path.Relative

/-!
# Selections

A selection says which files of a walk are feature files, and which paths the walk
leaves out.  A path is left out when it, or what it is relative to the root,
starts with an ignored path or matches an ignored pattern.
-/

set_option autoImplicit false

namespace FeatureDigest

/-- Which files a walk yields. -/
structure Selection where
  extensions : List String
  /-- Glob patterns of paths to leave out. -/
  patterns : List Glob.Pattern
  /-- Paths to leave out, with all below them. -/
  paths : List Path
  deriving DecidableEq, Repr

namespace Selection

/-- The selection of a configuration. -/
def ofConfig (config : Config) : Selection :=
  ⟨config.extensions, config.ignorePatterns, config.ignorePaths⟩

/-- The selection that nothing was said about. -/
def standard : Selection := ofConfig Config.standard

instance : Inhabited Selection := ⟨standard⟩

/-- A path starts with an ignored path, a `.` in front of which does not count. -/
def startsWithIgnored (path ignored : Path) : Bool :=
  path.startsWith (ignored.relativeTo ⟨"."⟩)

/-- A path of the walk from a root is left out. -/
def ignores (selection : Selection) (root path : Path) : Bool :=
  let relative := path.relativeTo root
  selection.paths.any (fun ignored =>
      startsWithIgnored relative ignored || startsWithIgnored path ignored)
    || selection.patterns.any (fun pattern =>
      pattern.matches path.text || pattern.matches relative.text)

end Selection

end FeatureDigest
