import FeatureDigest.Command.Arguments
import FeatureDigest.Command.Colour
import FeatureDigest.Command.Run

/-!
# The program

Reads from the disk what a command will look at, runs the command on that, and shows
its outcome.  Folders are read as the command comes to them; a link is kept with
the canonical path of what it leads to, or without a target when it leads nowhere.
-/

set_option autoImplicit false

namespace FeatureDigest.Program

/-- The place of an absolute path without links. -/
def placeOf (path : Path) : Place := path.steps.filterMap FileName.ofPiece?

/-- The node of a kind of file, with what can be said without reading it. -/
def nodeOf (path : String) : IO.FS.FileType → IO Node
  | .dir => pure (.folder [])
  | .symlink =>
    try
      let target ← IO.FS.realPath path
      pure (.link ⟨target.toString⟩)
    catch _ => pure (.link ⟨""⟩)
  | .file => pure (.file .empty)
  | .other => pure (.link ⟨""⟩)

/-- The tree with the entries of a folder read, unless they were read before. -/
def readFolder (tree : FileTree) (place : Place) : IO FileTree := do
  match tree.at? place with
  | some (.folder []) =>
    try
      let folder ← IO.FS.realPath (Path.ofPlace place).text
      let mut read := tree
      for entry in ← folder.readDir do
        if let some name := FileName.ofPiece? entry.fileName.toList then
          let status ← entry.path.symlinkMetadata
          read := read.put (place ++ [name]) (← nodeOf entry.path.toString status.type)
      pure read
    catch _ => pure tree
  | _ => pure tree

/-- The tree with all folders read that following pieces from a place leads to. -/
partial def readAlong (tree : FileTree) (place : Place) (pieces : List Piece) :
    IO FileTree := do
  let tree ← readFolder tree place
  match pieces with
  | [] => pure tree
  | piece :: pieces =>
    if isFiller piece then readAlong tree place pieces
    else if piece = ['.', '.'] then readAlong tree place.dropLast pieces
    else
      match FileName.ofPiece? piece with
      | none => pure tree
      | some name =>
        match tree.at? (place ++ [name]) with
        | some (.folder _) => readAlong tree (place ++ [name]) pieces
        | some (.link target) =>
          if target.text.isEmpty then pure tree
          else readAlong tree [] (target.steps ++ pieces)
        | _ => pure tree

/-- The tree with all folders read that a path leads to. -/
def readPath (tree : FileTree) (path : Path) : IO FileTree := do
  let tree ← readAlong tree [] (tree.here.map FileName.piece)
  match FileTree.start tree.here path with
  | .ok (place, pieces) => readAlong tree place pieces
  | .error _ => pure tree

/-- The tree with the content of a file read. -/
def readContent (tree : FileTree) (path : Path) : IO FileTree := do
  match tree.find .target path with
  | .ok (place, .file _) =>
    try
      let content ← IO.FS.readBinFile (Path.ofPlace place).text
      pure (tree.put place (.file content))
    catch _ => pure tree
  | _ => pure tree

/-- The tree with all read that the search for a configuration looks at. -/
def readConfig (tree : FileTree) (start : Path) : IO FileTree := do
  let mut read := tree
  for folder in start.ancestors do
    read ← readPath read (Config.fileIn folder)
    read ← readPath read (Config.repositoryIn folder)
  match Config.findFile? read start with
  | some file => readContent read file
  | none => pure read

/-- The path of what a walk reaches next. -/
def nextPath? (walk : Walk) : Option Path :=
  match walk.pending with
  | .root path :: _ => some path
  | .entry path _ :: _ => some path
  | _ => none

/-- The tree with all read that a walk looks at. -/
partial def readWalk (tree : FileTree) (walk : Walk) : IO FileTree := do
  let tree ← match nextPath? walk with
    | none => pure tree
    | some path => do
      let read ← readPath tree path
      if path.hasExtension walk.selection.extensions then readContent read path
      else pure read
  match walk.step tree with
  | none => pure tree
  | some (_, next) => readWalk tree next

/-- The tree with all read that a command looks at. -/
def readFor (tree : FileTree) : Option Command → IO FileTree
  | none => pure tree
  | some .init => readPath tree ⟨Config.fileName⟩
  | some (.scan arguments) => do
    let tree ← readConfig tree arguments.start
    match Config.load tree arguments.start with
    | .error _ => pure tree
    | .ok loaded =>
      let config := arguments.override loaded.config
      readWalk tree (Walk.start (arguments.root config) (.ofConfig config))

/-- Writes what a command has made, and gives the outcome that this leads to. -/
def keep (command : Option Command) (outcome : Outcome) : IO Outcome := do
  if command = some .init ∧ outcome.exit = 0 then
    try
      IO.FS.writeBinFile Config.fileName Config.standardText.toUTF8
      pure outcome
    catch fault =>
      pure (.failure "" ("Failed to write " ++ Config.fileName ++ ": " ++ fault.toString))
  else pure outcome

/-- The variables of the environment that speak about colours. -/
def colourVariables : IO ColourVariables := do
  let clicolor ← IO.getEnv "CLICOLOR"
  let clicolorForce ← IO.getEnv "CLICOLOR_FORCE"
  let noColor ← IO.getEnv "NO_COLOR"
  pure ⟨clicolor, clicolorForce, noColor⟩

/-- The outcome of a call. -/
def outcomeOf (arguments : List String) : IO Outcome := do
  match Command.ofArguments arguments with
  | .error reply => pure reply.outcome
  | .ok command =>
    let here ← IO.currentDir
    let tree ← readFor ⟨[], placeOf ⟨here.toString⟩⟩ command
    let colour := (← colourVariables).wantColour (← (← IO.getStdout).isTty)
    keep command (Command.run colour tree command).1

end FeatureDigest.Program

/-- Runs the command that the arguments give. -/
def main (arguments : List String) : IO UInt32 := do
  let outcome ← FeatureDigest.Program.outcomeOf arguments
  (← IO.getStderr).putStr outcome.stderr
  (← IO.getStdout).putStr outcome.stdout
  pure outcome.exit.toUInt32
