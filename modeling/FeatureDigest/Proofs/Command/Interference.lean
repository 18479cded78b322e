import FeatureDigest.Command.Arguments
import FeatureDigest.Command.Run
import FeatureDigest.Proofs.Scan.Alike

/-!
# What a scan does not see

A scan reads two kinds of file: the configuration that it finds, and the files that it
yields.  The bytes of all other files play no part (`call_scan_eq_of_alike`), and which files
it yields does not depend on any of them.
-/

set_option autoImplicit false

namespace FeatureDigest

variable {first second : FileTree}

/-! ## The configuration -/

namespace Config

theorem endsAt_alike (h : first.Alike second) : endsAt first = endsAt second := by
  funext folder
  rw [endsAt, endsAt, h.reaches, h.reaches]

theorem findFile?_alike (h : first.Alike second) (start : Path) :
    findFile? first start = findFile? second start := by
  rw [findFile?, findFile?, endsAt_alike h]
  simp only [h.reaches]

theorem load_alike (h : first.Alike second) {start : Path}
    (hsame : ∀ path, findFile? first start = some path →
      first.readText path = second.readText path) : load first start = load second start := by
  rw [load, load, ← findFile?_alike h]
  cases hfile : findFile? first start with
  | none => rfl
  | some path => simp only [ofFile, hsame path hfile]

end Config

/-! ## The run -/

theorem Report.ofWalk_alike (h : first.Alike second) {root : Path} {selection : Selection}
    (hfiles : ∀ file ∈ ((Walk.start root selection).drain first).1,
      file.reread second = file.reread first) :
    ofWalk second root selection = ofWalk first root selection := by
  rw [ofWalk, ofWalk, Walk.drain_eq_of_alike h hfiles, FileTree.canonicalOrSelf,
    FileTree.canonicalOrSelf, h.canonical]

namespace ScanArguments

theorem start_eq (arguments : ScanArguments) : arguments.start = arguments.path.getD ⟨"."⟩ := rfl

/-- What a scan does once it has its configuration. -/
def proceed (arguments : ScanArguments) (colour : Bool) (tree : FileTree) (notes : String)
    (config : Config) : Outcome :=
  match config.validate with
  | .error invalid => .failure notes invalid.message
  | .ok _ =>
    let (report, faults) := Report.ofWalk tree (arguments.root config) (.ofConfig config)
    let warnings :=
      (if arguments.verbose then faults.map (WalkFault.warning colour) else [])
        ++ skippedWarning colour arguments.verbose report.skipped
    .success (report.render config.format colour) (notes ++ unlines warnings)

theorem run_eq (arguments : ScanArguments) (colour : Bool) (tree : FileTree) :
    arguments.run colour tree =
      match Config.load tree arguments.start with
      | .error fault => .failure "" fault.message
      | .ok loaded =>
        arguments.proceed colour tree (arguments.notes loaded.fromFile)
          (arguments.override loaded.config) := rfl

/-- The files that a scan yields under a configuration. -/
def yieldedUnder (arguments : ScanArguments) (tree : FileTree) (config : Config) :
    List FeatureFile :=
  match config.validate with
  | .error _ => []
  | .ok _ => ((Walk.start (arguments.root config) (.ofConfig config)).drain tree).1

/-- The files that a scan yields. -/
def yielded (arguments : ScanArguments) (tree : FileTree) : List FeatureFile :=
  match Config.load tree arguments.start with
  | .error _ => []
  | .ok loaded => arguments.yieldedUnder tree (arguments.override loaded.config)

theorem proceed_alike (h : first.Alike second) {arguments : ScanArguments} {config : Config}
    (hfiles : ∀ file ∈ arguments.yieldedUnder first config,
      file.reread second = file.reread first) (colour : Bool) (notes : String) :
    arguments.proceed colour second notes config
      = arguments.proceed colour first notes config := by
  unfold proceed
  unfold yieldedUnder at hfiles
  cases hvalid : config.validate with
  | error invalid => rfl
  | ok _ =>
    simp only [hvalid] at hfiles
    simp only [Report.ofWalk_alike h hfiles]

/-- A scan overlooks in which bytes two trees differ: they agree on the configuration that it
finds in the first one, and on the files that it yields there, unless they give such a file
no text in the one and no byte in the other. -/
structure Overlooks (arguments : ScanArguments) (first second : FileTree) : Prop where
  config : ∀ path place node, Config.findFile? first arguments.start = some path →
    first.find .target path = .ok (place, node) → first.content? place = second.content? place
  files : ∀ file ∈ arguments.yielded first, ∀ place node,
    first.find .target file.path = .ok (place, node) →
      first.content? place = second.content? place ∨ first.Hollow second place

theorem run_alike (h : first.Alike second) {arguments : ScanArguments}
    (hoverlooks : arguments.Overlooks first second) (colour : Bool) :
    arguments.run colour second = arguments.run colour first := by
  have hload : Config.load first arguments.start = Config.load second arguments.start := by
    apply Config.load_alike h
    intro path hfile
    exact h.readText fun place node => hoverlooks.config path place node hfile
  have hfiles := hoverlooks.files
  rw [run_eq, run_eq, ← hload]
  unfold yielded at hfiles
  cases hloaded : Config.load first arguments.start with
  | error fault => rfl
  | ok loaded =>
    simp only [hloaded] at hfiles
    apply proceed_alike h
    intro file hfile
    exact h.reread (hfiles file hfile)

end ScanArguments

/-! ## The call -/

namespace Command

/-- What a call with some arguments shows, and the tree that it leaves. -/
def call (colour : Bool) (tree : FileTree) (texts : List String) : Outcome × FileTree :=
  match ofArguments texts with
  | .error reply => (reply.outcome, tree)
  | .ok command => run colour tree command

/-- A call of a scan is a scan or an answer that does not look at the tree. -/
theorem call_scan_cases (texts : List String) :
    (∃ arguments, ofArguments ("scan" :: texts) = .ok (some (.scan arguments)) ∧
        ∀ colour tree, (call colour tree ("scan" :: texts)).1 = arguments.run colour tree) ∨
      ∃ reply, ofArguments ("scan" :: texts) = .error reply ∧
        ∀ colour tree, (call colour tree ("scan" :: texts)).1 = reply.outcome := by
  have hscan : ofArguments ("scan" :: texts)
      = (ScanArguments.bare.read .nothing texts).map
        fun arguments => some (.scan arguments) := rfl
  cases hread : ScanArguments.bare.read .nothing texts with
  | error reply =>
    have hreply : ofArguments ("scan" :: texts) = .error reply := by
      rw [hscan, hread]
      rfl
    exact Or.inr ⟨reply, hreply, fun colour tree => by rw [call, hreply]⟩
  | ok arguments =>
    have hcommand : ofArguments ("scan" :: texts) = .ok (some (.scan arguments)) := by
      rw [hscan, hread]
      rfl
    exact Or.inl ⟨arguments, hcommand, fun colour tree => by rw [call, hcommand]; rfl⟩

/-- In two trees that are alike every walk comes to the same paths in the same order and
passes over the same paths.  A call of a scan shows the same in both when the scan overlooks
in which bytes they differ. -/
theorem call_scan_eq_of_alike (h : first.Alike second) :
    (∀ root selection,
      ((Walk.start root selection).drain first).1.map FeatureFile.path
          = ((Walk.start root selection).drain second).1.map FeatureFile.path ∧
        ((Walk.start root selection).drain first).2
          = ((Walk.start root selection).drain second).2) ∧
      ∀ texts,
        (∀ arguments, ofArguments ("scan" :: texts) = .ok (some (.scan arguments)) →
          arguments.Overlooks first second) →
        ∀ colour,
          (call colour first ("scan" :: texts)).1 = (call colour second ("scan" :: texts)).1 := by
  refine ⟨?_, ?_⟩
  · intro root selection
    rw [Walk.drain_alike h, List.map_map]
    exact ⟨rfl, rfl⟩
  · intro texts hoverlooks colour
    rcases call_scan_cases texts with ⟨arguments, hcommand, hcall⟩ | ⟨reply, _, hcall⟩
    · rw [hcall, hcall, ScanArguments.run_alike h (hoverlooks arguments hcommand)]
    · rw [hcall, hcall]

/-- An entry of a folder can have the name of the configuration file. -/
theorem namesEntry_fileName : namesEntry Config.fileName.toList = true := by decide +kernel

/-- The place of the configuration of an example. -/
def rcPlace : Place := [⟨Config.fileName.toList, by decide +kernel⟩]

/-- The content of the configuration. -/
def rcContent : ByteArray := "\x7b\"extensions\":[\"f\"],\"ignores\":[\"h\"]\x7d".toUTF8

/-- The place of a feature file. -/
def plainPlace : Place := [⟨['p', '.', 'f'], by decide⟩]

/-- The place of a feature file without text. -/
def hollowPlace : Place := [⟨['q', '.', 'f'], by decide⟩]

/-- The place of a feature file in a folder that is left out. -/
def hiddenPlace : Place := [⟨['h'], by decide⟩, ⟨['r', '.', 'f'], by decide⟩]

/-- A tree with a configuration, two files that it selects and one that it leaves out. -/
def openTree : FileTree :=
  ((((⟨[], []⟩ : FileTree).put rcPlace (.file rcContent)).put plainPlace
    (.file "Given x".toUTF8)).put hollowPlace (.file .empty)).put hiddenPlace
      (.file "Given y".toUTF8)

/-- The tree with other bytes in the file without text and in the file that is left out. -/
def veiledTree : FileTree :=
  (openTree.put hollowPlace (.file ⟨#[0xff]⟩)).put hiddenPlace (.file "Then z".toUTF8)

theorem openTree_alike : openTree.Alike veiledTree := by
  have hhollow : openTree.content? hollowPlace = some .empty := rfl
  have hhidden : (openTree.put hollowPlace (.file ⟨#[0xff]⟩)).content? hiddenPlace
      = some "Given y".toUTF8 := rfl
  exact (FileTree.alike_put hhollow _).trans (FileTree.alike_put hhidden _)

theorem yielded_openTree : ScanArguments.bare.yielded openTree
    = [⟨⟨"/p.f"⟩, ["Given x"]⟩, ⟨⟨"/q.f"⟩, []⟩] := by
  decide +kernel

theorem overlooks_openTree : ScanArguments.bare.Overlooks openTree veiledTree := by
  have hrc (path : Path) (hfile : Config.findFile? openTree ⟨"."⟩ = some path) :
      ∃ node, openTree.find .target path = .ok (rcPlace, node) := by
    have hfound : Config.findFile? openTree ⟨"."⟩ = some ⟨"./.gherkinrc.json"⟩ := by
      decide +kernel
    rw [hfound, Option.some.injEq] at hfile
    subst hfile
    exact ⟨_, rfl⟩
  have hplain : openTree.find .target ⟨"/p.f"⟩ = .ok (plainPlace, .file "Given x".toUTF8) := rfl
  have hhollow : openTree.find .target ⟨"/q.f"⟩ = .ok (hollowPlace, .file .empty) := rfl
  refine ⟨?_, ?_⟩
  · intro path place node hfile hfind
    obtain ⟨held, hheld⟩ := hrc path hfile
    rw [hheld] at hfind
    cases hfind
    rfl
  · intro file hfile place node hfind
    rw [yielded_openTree, List.mem_cons, List.mem_singleton] at hfile
    rcases hfile with rfl | rfl
    · rw [hplain] at hfind
      cases hfind
      exact Or.inl rfl
    · rw [hhollow] at hfind
      cases hfind
      exact Or.inr ⟨⟨#[0xff]⟩, by decide +kernel, Or.inr ⟨rfl, rfl⟩⟩

theorem call_scan_openTree :
    openTree.Alike veiledTree ∧
      (∀ arguments, ofArguments ["scan"] = .ok (some (.scan arguments)) →
        arguments.Overlooks openTree veiledTree) ∧
      openTree.content? hiddenPlace ≠ veiledTree.content? hiddenPlace ∧
      (call false openTree ["scan"]).1 = (call false veiledTree ["scan"]).1 := by
  have hoverlooks (arguments : ScanArguments)
      (hcommand : ofArguments ["scan"] = .ok (some (.scan arguments))) :
      arguments.Overlooks openTree veiledTree := by
    have hbare : ofArguments ["scan"] = .ok (some (.scan .bare)) := rfl
    rw [hbare] at hcommand
    cases hcommand
    exact overlooks_openTree
  have hsame := (call_scan_eq_of_alike openTree_alike).2 [] hoverlooks false
  exact ⟨openTree_alike, hoverlooks, by decide +kernel, hsame⟩

end Command

end FeatureDigest
