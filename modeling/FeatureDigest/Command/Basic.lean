import FeatureDigest.Config.Basic
import FeatureDigest.Path.Basic

/-!
# Commands

What the program can be told to do, and why the arguments of a call may be no
command.
-/

set_option autoImplicit false

namespace FeatureDigest

/-- What a scan is told by its arguments. -/
structure ScanArguments where
  /-- The folder to scan. -/
  path : Option Path
  format : Option Format
  /-- Ignores to be added to those of the configuration. -/
  ignores : List String
  /-- Extensions instead of those of the configuration, unless there are none. -/
  extensions : List String
  verbose : Bool
  deriving DecidableEq, Repr

/-- A scan that is told nothing. -/
def ScanArguments.bare : ScanArguments := ⟨none, none, [], [], false⟩

instance : Inhabited ScanArguments := ⟨ScanArguments.bare⟩

/-- What the program is told to do. -/
inductive Command
  /-- Report on the feature files of a folder. -/
  | scan (arguments : ScanArguments)
  /-- Make a configuration file. -/
  | init
  deriving DecidableEq, Repr, Inhabited

/-- What help can be asked about. -/
inductive HelpTopic
  | program
  | scan
  | init
  | help
  deriving DecidableEq, Repr, Inhabited

/-- Why arguments are no command. -/
inductive Misuse
  /-- An argument that there is no use for. -/
  | unknownArgument
  /-- A value that is missing or not accepted. -/
  | invalidValue
  | unknownCommand
  /-- An argument that may be given once was given again. -/
  | repeated
  /-- A flag with a value. -/
  | unexpectedValue
  deriving DecidableEq, Repr, Inhabited

/-- What answers a call whose arguments give no command to run. -/
inductive Reply
  | help (topic : HelpTopic)
  | version
  | misuse (cause : Misuse)
  deriving DecidableEq, Repr, Inhabited

end FeatureDigest
