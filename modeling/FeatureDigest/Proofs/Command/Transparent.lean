import FeatureDigest.Proofs.Command.Init
import FeatureDigest.Proofs.Scan.Growth

/-!
# Scans before and after the configuration file was made

A new configuration file says what holds without one, and a scan does not yield it unless it
is told to.  So a scan of the current folder shows the same before and after the file was made
(`scan_after_init`), but for the note on its absence.
-/

set_option autoImplicit false

namespace FeatureDigest

/-! ## The new file -/

namespace FileTree

/-- Without links the configuration file of the current folder is in this folder. -/
theorem find_fileName_plain {tree : FileTree} {place : Place} {node : Node}
    (hplain : ∀ place target, tree.at? place ≠ some (.link target))
    (h : tree.find .target ⟨Config.fileName⟩ = .ok (place, node)) :
    ∃ name entries, name.piece = Config.fileName.toList ∧ place = tree.here ++ [name] ∧
      tree.at? tree.here = some (.folder entries) := by
  obtain ⟨_, horigin, hsteps⟩ := outset_eq_ok_iff.1 (tree.outset_fileName .target)
  obtain ⟨_, hfollows, _⟩ := find_eq_ok_iff.1 h
  rw [← horigin, ← hsteps] at hfollows
  -- The one piece leads from the current folder to an entry of it, as it meets no link.
  have hhop {stop : Stop}
      (hstop : tree.advance .target tree.here [Config.fileName.toList] = .ok stop) :
      ∃ name entries, name.piece = Config.fileName.toList ∧
        stop = .place (tree.here ++ [name]) ∧ tree.at? tree.here = some (.folder entries) := by
    have hfiller : isFiller Config.fileName.toList = false := by decide
    have hup : Config.fileName.toList ≠ ['.', '.'] := by decide
    generalize Config.fileName.toList = piece at hstop hfiller hup ⊢
    rcases advance_target_cases hstop with ⟨next, hop, hnext⟩ | ⟨target, met, _⟩
    · rw [advance_nil] at hnext
      cases hnext
      cases hop with
      | stay _ filler =>
        rw [filler] at hfiller
        cases hfiller
      | up _ => exact absurd rfl hup
      | @down entries name child folder _ _ => exact ⟨name, entries, rfl, rfl, folder⟩
    · cases met with
      | @link entries name target folder found =>
        rw [← at?_child folder] at found
        exact absurd found (hplain _ target)
  cases hfollows with
  | place hstop =>
    obtain ⟨name, entries, hname, hplace, hat⟩ := hhop hstop
    cases hplace
    exact ⟨name, entries, hname, rfl, hat⟩
  | link hstop _ _ =>
    obtain ⟨_, _, _, hplace, _⟩ := hhop hstop
    cases hplace

namespace Gains

variable {first second : FileTree} {place : Place} {content : ByteArray}

/-- A tree without links gains none. -/
theorem plain (h : first.Gains second place content)
    (hplain : ∀ place target, first.at? place ≠ some (.link target)) (other : Place)
    (target : Path) : second.at? other ≠ some (.link target) := by
  intro hlink
  by_cases hother : other = place
  · rw [hother, h.made] at hlink
    cases hlink
  · cases hat : first.at? other with
    | none => cases hlink.symm.trans (h.alone other hother hat)
    | some node =>
      obtain ⟨twin, htwin, hmatch⟩ := h.kept hat
      cases hlink.symm.trans htwin
      cases hmatch
      exact hplain other target hat

/-- What is a folder by now was a folder before. -/
theorem folder_before (h : first.Gains second place content) {other : Place}
    {entries : Entries} (hat : second.at? other = some (.folder entries)) :
    ∃ held, first.at? other = some (.folder held) := by
  have hother : other ≠ place := by
    rintro rfl
    cases hat.symm.trans h.made
  cases hbefore : first.at? other with
  | none => cases hat.symm.trans (h.alone other hother hbefore)
  | some node =>
    obtain ⟨twin, htwin, hmatch⟩ := h.kept hbefore
    cases hat.symm.trans htwin
    cases hmatch with
    | folder held => exact ⟨held, rfl⟩

end Gains

/-- A path of fillers leads to the current folder. -/
theorem find_here {tree : FileTree} {aim : Aim} {entries : Entries}
    (h : tree.at? tree.here = some (.folder entries)) :
    tree.find aim ⟨"./"⟩ = .ok (tree.here, .folder entries) := by
  have hsteps : (⟨"./"⟩ : Path).steps = [['.'], []] := by decide +kernel
  refine find_eq_ok_iff.2 ⟨⟨by decide, by decide, fun _ => by decide⟩, ?_, h⟩
  apply Follows.place
  rw [hsteps]
  have horigin : tree.origin ⟨"./"⟩ = tree.here := rfl
  rw [horigin, advance_filler h (by decide), advance_filler h (by decide), advance_nil]

end FileTree

namespace Config

/-- Without a configuration file in the current folder, the standard configuration holds
there: no folder above is searched. -/
theorem load_of_free {tree : FileTree} (h : tree.reaches ⟨fileName⟩ = false) :
    load tree ⟨"."⟩ = .ok ⟨standard, false⟩ := by
  have hnone : findFile? tree ⟨"."⟩ = none := by
    have hancestors : (⟨"."⟩ : Path).ancestors = [⟨"."⟩, ⟨""⟩] := by decide +kernel
    have hfolder : ∀ folder ∈ (⟨"."⟩ : Path).ancestors, tree.reaches (fileIn folder) = false := by
      rw [hancestors]
      intro folder hmem
      rcases List.mem_cons.1 hmem with rfl | hmem
      · rw [tree.reaches_fileIn_here, h]
      · rw [List.mem_singleton.1 hmem]
        exact h
    rw [findFile?]
    cases hfound : (⟨"."⟩ : Path).ancestors.find? (endsAt tree) with
    | none => rfl
    | some folder =>
      have hmem := List.mem_of_find?_eq_some hfound
      simp only [hfolder folder hmem, Bool.false_eq_true, if_false]
  rw [load, hnone]

/-- The configuration file has no other extension than `json`. -/
theorem hasExtension_fileName {extensions : List String} {name : FileName}
    (hname : name.piece = fileName.toList)
    (h : ∀ extension ∈ extensions, extension.toList.dropWhile (· == '.') ≠ "json".toList)
    (path : Path) : (path.join ⟨String.ofList name.piece⟩).hasExtension extensions = false := by
  have hextension : (path.join ⟨String.ofList name.piece⟩).extension? = some "json".toList := by
    rw [Path.extension?, path.fileName?_join, hname]
    decide +kernel
  rw [Path.hasExtension, hextension]
  simpa using h

end Config

/-! ## The run -/

namespace ScanArguments

/-- A scan that does not notice whether the configuration file is there: it is told no path,
and neither to be verbose nor to look for `json` files. -/
structure Unnoticing (arguments : ScanArguments) : Prop where
  path : arguments.path = none
  verbose : arguments.verbose = false
  extensions : ∀ extension ∈ arguments.extensions,
    extension.toList.dropWhile (· == '.') ≠ "json".toList

variable {arguments : ScanArguments} {tree after : FileTree}

theorem Unnoticing.override (h : arguments.Unnoticing) :
    ∀ extension ∈ (arguments.override Config.standard).extensions,
      extension.toList.dropWhile (· == '.') ≠ "json".toList := by
  intro extension hmem
  rw [ScanArguments.override] at hmem
  split at hmem
  · rw [List.mem_singleton.1 hmem]
    decide
  · exact h.extensions extension hmem

/-- A configuration is scanned with the same outcome when the walk comes to the same. -/
theorem proceed_congr {config : Config}
    (h : Report.ofWalk after (arguments.root config) (.ofConfig config)
      = Report.ofWalk tree (arguments.root config) (.ofConfig config))
    (colour : Bool) (notes : String) :
    arguments.proceed colour after notes config
      = arguments.proceed colour tree notes config := by
  rw [proceed, proceed, h]

theorem run_unnoticed (h : arguments.Unnoticing)
    (hplain : ∀ place target, tree.at? place ≠ some (.link target))
    (hmakes : Command.Makes tree after) (colour : Bool) :
    arguments.run colour after = arguments.run colour tree := by
  obtain ⟨place, hgains, hfind⟩ := hmakes.gained
  obtain ⟨name, others, hname, hplace, hafter⟩ :=
    FileTree.find_fileName_plain (hgains.plain hplain) hfind
  rw [hgains.here] at hplace hafter
  obtain ⟨entries, hhere⟩ := hgains.folder_before hafter
  have hhides : (Selection.ofConfig (arguments.override Config.standard)).Hides tree after
      tree.here name Config.standardText.toUTF8 := by
    rw [hplace] at hgains
    exact ⟨hgains, hplain, Config.hasExtension_fileName hname h.override⟩
  have hroot {aim : Aim} : tree.find aim ⟨"./"⟩ ≠ .error .notFound :=
    FileTree.find_ne_notFound (FileTree.find_here hhere)
  have hwalk : Report.ofWalk after ⟨"./"⟩ (.ofConfig (arguments.override Config.standard))
      = Report.ofWalk tree ⟨"./"⟩ (.ofConfig (arguments.override Config.standard)) := by
    rw [Report.ofWalk, Report.ofWalk, Walk.drain_hides hhides (.root hroot hroot),
      FileTree.canonicalOrSelf, FileTree.canonicalOrSelf, hgains.canonical hroot]
  have hstart : arguments.start = ⟨"."⟩ := by rw [start, h.path, Option.getD_none]
  have hwalked : arguments.root (arguments.override Config.standard) = ⟨"./"⟩ := by
    rw [root, h.path, Option.getD_none]
    rfl
  have hnotes (fromFile : Bool) : arguments.notes fromFile = "" := by
    rw [notes, h.verbose, Bool.false_and, if_neg Bool.false_ne_true]
  rw [run_eq, run_eq, hstart, hmakes.loaded, Config.load_of_free hmakes.free]
  simp only [hnotes]
  apply proceed_congr
  rw [hwalked]
  exact hwalk

end ScanArguments

namespace Command

/-- In a tree without links, a call of a scan of the current folder shows the same before and
after a call that made the configuration file, unless it is verbose or looks for `json`
files. -/
theorem scan_after_init {tree : FileTree}
    (hplain : ∀ place target, tree.at? place ≠ some (.link target)) {colour : Bool}
    {inits : List String} (hinit : ofArguments inits = .ok (some .init))
    (hmade : (call colour tree inits).1.exit = 0) (texts : List String)
    (htexts : ∀ arguments, ofArguments ("scan" :: texts) = .ok (some (.scan arguments)) →
      arguments.Unnoticing) (scanColour : Bool) :
    (call scanColour (call colour tree inits).2 ("scan" :: texts)).1
      = (call scanColour tree ("scan" :: texts)).1 := by
  have hmakes : Makes tree (call colour tree inits).2 := by
    rcases call_init_cases colour tree inits with ⟨_, _, hmakes⟩ | ⟨hrefused, _⟩
    · exact hmakes
    · have hasks : asksInit inits = true := by rw [asksInit, hinit]
      rw [(hrefused hasks).1] at hmade
      cases hmade
  rcases call_scan_cases texts with ⟨arguments, hcommand, hcall⟩ | ⟨reply, _, hcall⟩
  · rw [hcall, hcall, ScanArguments.run_unnoticed (htexts arguments hcommand) hplain hmakes]
  · rw [hcall, hcall]

/-- A tree with one feature file. -/
def lonelyTree : FileTree :=
  ⟨[(⟨['a', '.', 'f', 'e', 'a', 't', 'u', 'r', 'e'], by decide⟩, .file "Given x".toUTF8)], []⟩

theorem lonelyTree_plain (place : Place) (target : Path) :
    lonelyTree.at? place ≠ some (.link target) := by
  intro hlink
  cases place with
  | nil => cases hlink
  | cons name place =>
    rw [FileTree.at?, Node.at?] at hlink
    split at hlink
    · rename_i child hchild
      have hfile : child = .file "Given x".toUTF8 := by
        rw [FileTree.top, Node.entries, lonelyTree, Entries.find?, Entries.find?] at hchild
        split at hchild
        · exact (Option.some.inj hchild).symm
        · cases hchild
      rw [hfile] at hlink
      cases place <;> cases hlink
    · cases hlink

/-- The scan meets the configuration file by now, and shows what it did before. -/
theorem scan_after_init_lonely :
    ofArguments ["init"] = .ok (some .init) ∧
      (call false lonelyTree ["init"]).1.exit = 0 ∧
      (call false lonelyTree ["init"]).2.reaches ⟨Config.fileName⟩ = true ∧
      (call true (call false lonelyTree ["init"]).2 ["scan", "--ignore", "b"]).1
        = (call true lonelyTree ["scan", "--ignore", "b"]).1 := by
  have hinit : ofArguments ["init"] = .ok (some .init) := rfl
  have hexit : (call false lonelyTree ["init"]).1.exit = 0 := by decide +kernel
  have hreaches : (call false lonelyTree ["init"]).2.reaches ⟨Config.fileName⟩ = true := by
    decide +kernel
  have haccepted : ofArguments ["scan", "--ignore", "b"]
      = .ok (some (.scan ⟨none, none, ["b"], [], false⟩)) := rfl
  have htexts (arguments : ScanArguments)
      (h : ofArguments ["scan", "--ignore", "b"] = .ok (some (.scan arguments))) :
      arguments.Unnoticing := by
    rw [haccepted] at h
    cases h
    exact ⟨rfl, rfl, nofun⟩
  exact ⟨hinit, hexit, hreaches,
    scan_after_init lonelyTree_plain hinit hexit ["--ignore", "b"] htexts true⟩

end Command

end FeatureDigest
