import FeatureDigest.Command.Help
import FeatureDigest.Config.Discovery
import FeatureDigest.Report.Json
import FeatureDigest.Scan.Walk

/-!
# Runs

What a command does with a file tree: what it writes to standard output and to
standard error, how it ends, and which tree it leaves.
-/

set_option autoImplicit false

namespace FeatureDigest

open Text (painted)

/-- What a run shows. -/
structure Outcome where
  exit : Nat
  stdout : String
  stderr : String
  deriving DecidableEq, Repr, Inhabited

/-- The outcome of a run that went well. -/
def Outcome.success (stdout : String) (stderr : String) : Outcome := ⟨0, stdout, stderr⟩

/-- The outcome of a run that failed, after what was noted before. -/
def Outcome.failure (notes message : String) : Outcome :=
  ⟨2, "", notes ++ unlines ["Error: " ++ message]⟩

/-! ## Scans -/

namespace ScanArguments

/-- Where the configuration is looked for. -/
def start (arguments : ScanArguments) : Path := arguments.path.getD ⟨"."⟩

/-- A configuration with what the arguments say over it. -/
def override (arguments : ScanArguments) (config : Config) : Config where
  root := config.root
  extensions :=
    if arguments.extensions.isEmpty then config.extensions else arguments.extensions
  ignores := config.ignores ++ arguments.ignores
  format := arguments.format.getD config.format

/-- The root of the walk. -/
def root (arguments : ScanArguments) (config : Config) : Path :=
  arguments.path.getD ⟨config.root⟩

/-- The note on a configuration that comes from no file. -/
def notes (arguments : ScanArguments) (fromFile : Bool) : String :=
  if arguments.verbose && !fromFile then
    unlines ["Note: No .gherkinrc.json found, using default configuration"]
  else ""

end ScanArguments

/-- The path of what a path leads to, or the path itself when it leads nowhere. -/
def FileTree.canonicalOrSelf (tree : FileTree) (path : Path) : Path :=
  (tree.canonical path).toOption.getD path

/-- The report on the feature files below a root, with the faults of the walk. -/
def Report.ofWalk (tree : FileTree) (root : Path) (selection : Selection) :
    Report × List WalkFault :=
  let (files, walk) := (Walk.start root selection).drain tree
  (.ofFiles (tree.canonicalOrSelf root) files walk.skipped, walk.faults)

/-- The warning about a path that could not be accessed. -/
def WalkFault.warning (colour : Bool) (fault : WalkFault) : String :=
  painted colour .boldYellow "warning:" ++ " Cannot access path: IO error for operation on "
    ++ fault.path.text ++ ": " ++ fault.cause.message

/-- The warning about all paths that could not be accessed, if there are any. -/
def skippedWarning (colour verbose : Bool) (skipped : Nat) : List String :=
  if skipped = 0 then []
  else
    [painted colour .boldYellow "warning:" ++ " " ++ toString skipped
      ++ " path(s) skipped due to access errors"
      ++ (if verbose then "" else " (use -v for details)")]

/-- Runs a scan. -/
def ScanArguments.run (arguments : ScanArguments) (colour : Bool) (tree : FileTree) :
    Outcome :=
  match Config.load tree arguments.start with
  | .error fault => .failure "" fault.message
  | .ok loaded =>
    let notes := arguments.notes loaded.fromFile
    let config := arguments.override loaded.config
    match config.validate with
    | .error invalid => .failure notes invalid.message
    | .ok _ =>
      let (report, faults) :=
        Report.ofWalk tree (arguments.root config) (.ofConfig config)
      let warnings :=
        (if arguments.verbose then faults.map (WalkFault.warning colour) else [])
          ++ skippedWarning colour arguments.verbose report.skipped
      .success (report.render config.format colour) (notes ++ unlines warnings)

/-! ## Making a configuration file -/

/-- Makes a configuration file in the current folder, unless there is one. -/
def runInit (colour : Bool) (tree : FileTree) : Outcome × FileTree :=
  let path : Path := ⟨Config.fileName⟩
  if tree.reaches path then (.failure "" (Config.fileName ++ " already exists"), tree)
  else
    match tree.write path Config.standardText.toUTF8 with
    | .error cause =>
      (.failure "" ("Failed to write " ++ Config.fileName ++ ": " ++ cause.message), tree)
    | .ok written =>
      (.success
        (unlines [painted colour .green successMark ++ " "
          ++ painted colour .green ("Created " ++ Config.fileName)]) "",
       written)

namespace Command

/-- Runs a command, or shows what the program is for when there is none. -/
def run (colour : Bool) (tree : FileTree) : Option Command → Outcome × FileTree
  | none => (.success HelpTopic.program.text "", tree)
  | some (.scan arguments) => (arguments.run colour tree, tree)
  | some .init => runInit colour tree

end Command

/-- What a reply shows. -/
def Reply.outcome : Reply → Outcome
  | .help topic => .success topic.text ""
  | .version => .success versionText ""
  | .misuse cause => ⟨2, "", unlines ["error: " ++ cause.message]⟩

end FeatureDigest
