import FeatureDigest.Config.Basic
import FeatureDigest.Glob.Match
import FeatureDigest.Path.Basic
import FeatureDigest.Text.Blank

/-!
# Ignores of a configuration

An entry with a wildcard is a glob pattern; any other entry is a path.  A
configuration is valid when every entry compiles as a pattern, whichever of the two
it is, and some extension is not blank.
-/

set_option autoImplicit false

namespace FeatureDigest

/-- The entry has a wildcard. -/
def isGlob (entry : String) : Bool := entry.toList.any fun c => c == '*' || c == '?'

namespace Config

/-- The pattern of an entry, if it compiles. -/
def pattern? (entry : String) : Option Glob.Pattern := (Glob.compile entry).toOption

/-- The patterns among the ignores.  Entries that do not compile are left out. -/
def ignorePatterns (config : Config) : List Glob.Pattern :=
  (config.ignores.filter isGlob).filterMap pattern?

/-- The paths among the ignores. -/
def ignorePaths (config : Config) : List Path :=
  (config.ignores.filter fun entry => !isGlob entry).map Path.mk

/-- Why a configuration is not valid. -/
inductive Invalid
  | ignore (entry : String) (fault : Glob.Fault)
  | noExtension
  deriving DecidableEq, Repr

/-- The wording of what is not valid. -/
def Invalid.message : Invalid → String
  | .ignore entry fault =>
    "Invalid glob pattern in 'ignores': \"" ++ entry ++ "\": " ++ fault.message
  | .noExtension => "'extensions' must contain at least one file extension"

/-- Checks that every entry compiles, in order. -/
def checkIgnores : List String → Except Invalid Unit
  | [] => .ok ()
  | entry :: entries =>
    match Glob.compile entry with
    | .ok _ => checkIgnores entries
    | .error fault => .error (.ignore entry fault)

/-- Checks the ignores, then that some extension is not blank. -/
def validate (config : Config) : Except Invalid Unit := do
  checkIgnores config.ignores
  if config.extensions.all fun extension => Text.allBlank extension.toList then
    throw .noExtension

end Config

end FeatureDigest
