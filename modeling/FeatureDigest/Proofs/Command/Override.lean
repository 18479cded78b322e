import FeatureDigest.Proofs.Command.Interference
import FeatureDigest.Proofs.Config.RoundTrip

/-!
# Arguments and configuration files

What the arguments of a scan say over its configuration can be written into the
configuration file as well: the scan shows the same (`run_eq_run_edited`).  It goes by what was
written, be it valid or not (`run_plain_of_find`), and does not see the file otherwise.
-/

set_option autoImplicit false

namespace FeatureDigest

theorem fromUTF8?_toUTF8 (text : String) : String.fromUTF8? text.toUTF8 = some text := by
  rw [String.fromUTF8?, String.toUTF8_eq_toByteArray, dif_pos text.isValidUTF8]
  rfl

namespace FileTree

/-- A file is found where it was before other bytes were written to it. -/
theorem find_put {tree : FileTree} {path : Path} {place : Place} {held : ByteArray}
    (h : tree.find .target path = .ok (place, .file held)) (content : ByteArray) :
    (tree.put place (.file content)).find .target path = .ok (place, .file content) := by
  have hheld := content?_of_find h
  rcases (alike_put hheld content).find .target path with
    ⟨fault, hfirst, _⟩ | ⟨found, node, other, hfirst, hsecond, _⟩
  · rw [h] at hfirst
    cases hfirst
  · rw [h] at hfirst
    cases hfirst
    have hat := (find_eq_ok_iff.1 hsecond).2.2
    have hput := content?_eq_some_iff.1 (content?_put hheld content)
    rw [hat, Option.some.injEq] at hput
    rw [hsecond, hput]

end FileTree

namespace Config

/-- What is loaded from a file that holds the text of a configuration. -/
theorem ofFile_of_find {tree : FileTree} {file : Path} {place : Place} {config : Config}
    (h : tree.find .target file = .ok (place, .file config.render.toUTF8)) :
    ofFile tree file =
      match config.validate with
      | .error cause => .error (.invalid cause)
      | .ok _ => .ok config := by
  have hread : tree.readText file = .ok config.render := by
    rw [FileTree.readText, h]
    simp only [fromUTF8?_toUTF8]
  cases hvalid : config.validate with
  | error cause => simp only [ofFile, hread, ofText_render, hvalid]
  | ok _ => simp only [ofFile, hread, ofText_render, hvalid]

theorem load_of_ofFile {tree : FileTree} {start file : Path}
    (hfile : findFile? tree start = some file) {config : Config}
    (hconfig : ofFile tree file = .ok config) : load tree start = .ok ⟨config, true⟩ := by
  rw [load, hfile]
  simp only [hconfig, Except.map]

end Config

namespace ScanArguments

/-- What the arguments say over a configuration, field by field. -/
theorem override_eq (arguments : ScanArguments) (config : Config) :
    arguments.override config =
      { root := config.root
        extensions :=
          if arguments.extensions = [] then config.extensions else arguments.extensions
        ignores := config.ignores ++ arguments.ignores
        format := arguments.format.getD config.format } := by
  simp only [override, List.isEmpty_iff]

theorem override_plain (path : Option Path) (verbose : Bool) (config : Config) :
    override ⟨path, none, [], [], verbose⟩ config = config := by
  rw [override_eq, if_pos rfl, List.append_nil]
  rfl

theorem notes_fromFile (arguments : ScanArguments) : arguments.notes true = "" := by
  simp [notes]

theorem proceed_plain (arguments : ScanArguments) (colour : Bool) (tree : FileTree)
    (notes : String) (config : Config) :
    proceed ⟨arguments.path, none, [], [], arguments.verbose⟩ colour tree notes config
      = arguments.proceed colour tree notes config := rfl

/-- The run of a scan whose configuration is in a file. -/
theorem run_of_ofFile (arguments : ScanArguments) {tree : FileTree} {file : Path}
    {config : Config} (hfile : Config.findFile? tree arguments.start = some file)
    (hconfig : Config.ofFile tree file = .ok config) (colour : Bool) :
    arguments.run colour tree
      = arguments.proceed colour tree "" (arguments.override config) := by
  simp only [run_eq, Config.load_of_ofFile hfile hconfig, notes_fromFile]

theorem yielded_of_ofFile (arguments : ScanArguments) {tree : FileTree} {file : Path}
    {config : Config} (hfile : Config.findFile? tree arguments.start = some file)
    (hconfig : Config.ofFile tree file = .ok config) :
    arguments.yielded tree = arguments.yieldedUnder tree (arguments.override config) := by
  simp only [yielded, Config.load_of_ofFile hfile hconfig]

/-- A scan that is told nothing over its configuration goes by what was written to the file of
the configuration: a configuration that is not valid is refused when it is loaded, with the
complaint that there is about arguments that are not valid. -/
theorem run_plain_of_find {path : Option Path} {verbose : Bool} {tree : FileTree} {file : Path}
    {place : Place} {config : Config}
    (hfile : Config.findFile? tree (path.getD ⟨"."⟩) = some file)
    (hfind : tree.find .target file = .ok (place, .file config.render.toUTF8)) (colour : Bool) :
    ScanArguments.run ⟨path, none, [], [], verbose⟩ colour tree
      = proceed ⟨path, none, [], [], verbose⟩ colour tree "" config := by
  have hread := Config.ofFile_of_find hfind
  cases hvalid : config.validate with
  | error invalid =>
    rw [hvalid] at hread
    have hload : Config.load tree (path.getD ⟨"."⟩) = .error (.invalid invalid) := by
      rw [Config.load, hfile]
      simp only [hread, Except.map]
    rw [run_eq, start_eq, hload, proceed, hvalid]
    rfl
  | ok _ =>
    rw [hvalid] at hread
    rw [run_of_ofFile ⟨path, none, [], [], verbose⟩ hfile hread, override_plain]

/-- A scan shows the same when what its arguments say over the configuration is written into
the file of this configuration instead, as long as it does not yield this file: the format over
that of the file, the extensions over those of the file unless there are none, and the ignores
after those of the file.  When the configuration is not valid with them, both complain about it. -/
theorem run_eq_run_edited {arguments : ScanArguments} {tree : FileTree} {file : Path}
    {place : Place} {content : ByteArray} {config : Config}
    (hfile : Config.findFile? tree (arguments.path.getD ⟨"."⟩) = some file)
    (hfind : tree.find .target file = .ok (place, .file content))
    (hconfig : Config.ofFile tree file = .ok config)
    (hunseen : ∀ found ∈ arguments.yielded tree, ∀ node,
      tree.find .target found.path ≠ .ok (place, node)) (colour : Bool) :
    let edited : Config :=
      { root := config.root
        extensions :=
          if arguments.extensions = [] then config.extensions else arguments.extensions
        ignores := config.ignores ++ arguments.ignores
        format := arguments.format.getD config.format }
    arguments.run colour tree
        = ScanArguments.run ⟨arguments.path, none, [], [], arguments.verbose⟩ colour
          (tree.put place (.file edited.render.toUTF8)) ∧
      ∀ invalid, edited.validate = .error invalid →
        arguments.run colour tree = .failure "" invalid.message := by
  intro edited
  let rewritten := tree.put place (.file edited.render.toUTF8)
  have hheld := FileTree.content?_of_find hfind
  have halike : tree.Alike rewritten := FileTree.alike_put hheld _
  have hoverride : arguments.override config = edited := arguments.override_eq config
  have hrun : arguments.run colour tree = arguments.proceed colour tree "" edited := by
    rw [arguments.run_of_ofFile hfile hconfig, hoverride]
  have hfound : Config.findFile? rewritten (arguments.path.getD ⟨"."⟩) = some file := by
    rw [← Config.findFile?_alike halike]
    exact hfile
  have hfiles : ∀ found ∈ arguments.yieldedUnder tree edited,
      found.reread rewritten = found.reread tree := by
    intro found hmem
    rw [← hoverride, ← arguments.yielded_of_ofFile hfile hconfig] at hmem
    apply halike.reread
    intro other node hother
    have hne : other ≠ place := by
      rintro rfl
      exact hunseen found hmem node hother
    exact Or.inl (FileTree.content?_put_of_ne hheld hne _).symm
  refine ⟨?_, ?_⟩
  · rw [hrun, run_plain_of_find hfound (FileTree.find_put hfind _), proceed_plain,
      proceed_alike halike hfiles]
  · intro invalid hinvalid
    rw [hrun, proceed, hinvalid]

open Command (openTree rcPlace rcContent hollowPlace)

/-- The configuration of the example. -/
def rcConfig : Config := ⟨"./", ["f"], ["h"], .text⟩

/-- A scan that is told another format, other extensions and to leave out one more file. -/
def jsonArguments : ScanArguments := ⟨none, some .json, ["p*"], ["feature", "f"], false⟩

/-- A scan that is told to look for files without an extension. -/
def blankArguments : ScanArguments := ⟨none, none, [], [" "], false⟩

/-- Arguments that the configuration of the example is valid with, and arguments that it is not
valid with. -/
theorem run_eq_run_edited_openTree :
    (Config.findFile? openTree ⟨"."⟩ = some ⟨"./.gherkinrc.json"⟩ ∧
      openTree.find .target ⟨"./.gherkinrc.json"⟩ = .ok (rcPlace, .file rcContent) ∧
      Config.ofFile openTree ⟨"./.gherkinrc.json"⟩ = .ok rcConfig ∧
      ∀ arguments ∈ [jsonArguments, blankArguments], ∀ found ∈ arguments.yielded openTree,
        ∀ node, openTree.find .target found.path ≠ .ok (rcPlace, node)) ∧
    jsonArguments.run false openTree
      = ScanArguments.bare.run false (openTree.put rcPlace
        (.file (⟨"./", ["feature", "f"], ["h", "p*"], .json⟩ : Config).render.toUTF8)) ∧
    blankArguments.run false openTree
      = ScanArguments.bare.run false (openTree.put rcPlace
        (.file (⟨"./", [" "], ["h"], .text⟩ : Config).render.toUTF8)) ∧
    blankArguments.run false openTree = .failure "" Config.Invalid.noExtension.message := by
  have hfile : Config.findFile? openTree ⟨"."⟩ = some ⟨"./.gherkinrc.json"⟩ := by
    decide +kernel
  have hfind : openTree.find .target ⟨"./.gherkinrc.json"⟩
      = .ok (rcPlace, .file rcContent) := rfl
  have hconfig : Config.ofFile openTree ⟨"./.gherkinrc.json"⟩ = .ok rcConfig := by
    rfl
  have hyielded : jsonArguments.yielded openTree = [⟨⟨"/q.f"⟩, []⟩] := by
    decide +kernel
  have hunseen : ∀ arguments ∈ [jsonArguments, blankArguments],
      ∀ found ∈ arguments.yielded openTree, ∀ node,
        openTree.find .target found.path ≠ .ok (rcPlace, node) := by
    refine List.forall_mem_cons.2 ⟨?_, List.forall_mem_singleton.2 ?_⟩
    · intro found hfound node hnode
      rw [hyielded, List.mem_singleton] at hfound
      subst hfound
      have hplace : openTree.find .target ⟨"/q.f"⟩ = .ok (hollowPlace, .file .empty) := rfl
      rw [hplace] at hnode
      cases hnode
    · have hnone : blankArguments.yielded openTree = [] := by decide +kernel
      rw [hnone]
      exact nofun
  have hjson := run_eq_run_edited hfile hfind hconfig (hunseen jsonArguments (by simp)) false
  have hblank := run_eq_run_edited hfile hfind hconfig (hunseen blankArguments (by simp)) false
  exact ⟨⟨hfile, hfind, hconfig, hunseen⟩, hjson.1, hblank.1, hblank.2 _ rfl⟩

end ScanArguments

end FeatureDigest
