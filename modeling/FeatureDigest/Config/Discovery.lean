import FeatureDigest.Config.Ignores
import FeatureDigest.Config.Reader
import FeatureDigest.FileTree.Access
import FeatureDigest.Path.Ancestors
import FeatureDigest.Text.Quoted

/-!
# Finding the configuration

The configuration of a folder is in the nearest of its ancestors, itself first,
that holds a configuration file or is the top of a repository.  Ancestors are taken
from the spelling of the path.  Where there is none, the standard configuration
holds.
-/

set_option autoImplicit false

namespace FeatureDigest.Config

/-- The path of a folder's configuration file. -/
def fileIn (folder : Path) : Path := folder.join ⟨fileName⟩

/-- The path of what makes a folder the top of a repository. -/
def repositoryIn (folder : Path) : Path := folder.join ⟨".git"⟩

/-- The search ends at the folder. -/
def endsAt (tree : FileTree) (folder : Path) : Bool :=
  tree.reaches (fileIn folder) || tree.reaches (repositoryIn folder)

/-- The configuration file for a folder, if there is one. -/
def findFile? (tree : FileTree) (start : Path) : Option Path :=
  match start.ancestors.find? (endsAt tree) with
  | some folder => if tree.reaches (fileIn folder) then some (fileIn folder) else none
  | none => none

/-- Why a configuration cannot be had. -/
inductive LoadFault
  | unreadable (path : Path) (cause : AccessFault)
  | malformed (path : Path) (text : String) (cause : Json.Fault)
  | invalid (cause : Invalid)
  deriving DecidableEq, Repr

/-- The wording of a load fault. -/
def LoadFault.message : LoadFault → String
  | .unreadable path cause =>
    "Failed to read config file: " ++ Text.quoted path.text ++ ": " ++ cause.message
  | .malformed path text cause =>
    "Failed to parse config file: " ++ Text.quoted path.text ++ ": "
      ++ cause.message text.toList
  | .invalid cause => cause.message

/-- A configuration, and whether it comes from a file. -/
structure Loaded where
  config : Config
  fromFile : Bool
  deriving DecidableEq, Repr

/-- The configuration in a file, which has to be valid. -/
def ofFile (tree : FileTree) (path : Path) : Except LoadFault Config :=
  match tree.readText path with
  | .error cause => .error (.unreadable path cause)
  | .ok text =>
    match ofText text with
    | .error cause => .error (.malformed path text cause)
    | .ok config =>
      match config.validate with
      | .error cause => .error (.invalid cause)
      | .ok _ => .ok config

/-- The configuration for a folder. -/
def load (tree : FileTree) (start : Path) : Except LoadFault Loaded :=
  match findFile? tree start with
  | none => .ok ⟨standard, false⟩
  | some path => (ofFile tree path).map fun config => ⟨config, true⟩

end FeatureDigest.Config
