import FeatureDigest.Proofs.Command.Override
import FeatureDigest.Proofs.Config.Discovery
import FeatureDigest.Proofs.FileTree.Growth

/-!
# Making the configuration file

A call that makes the configuration file adds one file to the tree, where the path of the
configuration file leads, through dangling links as well; a call that fails leaves the tree as
it is (`call_init_cases`).  As a tree only ever grows by calls, the path leads to the file from
then on, so that of many calls at most one makes the file (`init_safe`).
-/

set_option autoImplicit false

namespace FeatureDigest

namespace FileTree

/-- A filler in front of other pieces leads nowhere else. -/
theorem advance_filler_cons (tree : FileTree) (aim : Aim) (place : Place) {filler : Piece}
    (hfiller : isFiller filler = true) (piece : Piece) (pieces : List Piece) :
    tree.advance aim place (filler :: piece :: pieces)
      = tree.advance aim place (piece :: pieces) := by
  cases hat : tree.at? place with
  | none => simp only [advance_cons, hat]
  | some node =>
    cases node with
    | file content => simp only [advance_cons, hat]
    | link target => simp only [advance_cons, hat]
    | folder entries => exact advance_filler hat hfiller (piece :: pieces)

theorem follow_filler_cons (tree : FileTree) (aim : Aim) (links : Nat) (place : Place)
    {filler : Piece} (hfiller : isFiller filler = true) (piece : Piece) (pieces : List Piece) :
    tree.follow aim links place (filler :: piece :: pieces)
      = tree.follow aim links place (piece :: pieces) := by
  cases links <;> simp only [follow, tree.advance_filler_cons aim place hfiller]

theorem outset_fileName (tree : FileTree) (aim : Aim) :
    tree.outset aim ⟨Config.fileName⟩ = .ok (tree.here, [Config.fileName.toList]) := by
  refine outset_eq_ok_iff.2 ⟨⟨by decide, by decide, fun _ => by decide⟩, rfl, ?_⟩
  decide +kernel

theorem outset_fileIn_here (tree : FileTree) (aim : Aim) :
    tree.outset aim (Config.fileIn ⟨"."⟩)
      = .ok (tree.here, [['.'], Config.fileName.toList]) := by
  refine outset_eq_ok_iff.2 ⟨⟨by decide, by decide, fun _ => by decide⟩, ?_, ?_⟩
  · rfl
  · decide +kernel

/-- The configuration file of the current folder is found under both of its spellings. -/
theorem find_fileIn_here (tree : FileTree) (aim : Aim) :
    tree.find aim (Config.fileIn ⟨"."⟩) = tree.find aim ⟨Config.fileName⟩ := by
  have hfiller : isFiller ['.'] = true := by decide
  rw [find, find, resolve, resolve, outset_fileName, outset_fileIn_here]
  simp only [tree.follow_filler_cons aim maxLinks tree.here hfiller]

theorem reaches_fileIn_here (tree : FileTree) :
    tree.reaches (Config.fileIn ⟨"."⟩) = tree.reaches ⟨Config.fileName⟩ :=
  reaches_congr (tree.find_fileIn_here .target)

end FileTree

namespace Config

/-- A folder that holds a configuration file is not searched any further. -/
theorem findFile?_of_reaches {tree : FileTree} {start : Path}
    (h : tree.reaches (fileIn start) = true) : findFile? tree start = some (fileIn start) := by
  have hends : endsAt tree start = true := by rw [endsAt, h, Bool.true_or]
  rw [findFile?_of_ends hends, if_pos h]

/-- The configuration that was made in the current folder is the one that counts there. -/
theorem load_of_find {tree : FileTree} {place : Place} {config : Config}
    (h : tree.find .target ⟨fileName⟩ = .ok (place, .file config.render.toUTF8))
    (hvalid : config.validate = .ok ()) : load tree ⟨"."⟩ = .ok ⟨config, true⟩ := by
  have hfind : tree.find .target (fileIn ⟨"."⟩) = .ok (place, .file config.render.toUTF8) := by
    rw [tree.find_fileIn_here, h]
  have hreaches := FileTree.reaches_eq_true_iff.2 ⟨_, _, hfind⟩
  have hfile : ofFile tree (fileIn ⟨"."⟩) = .ok config := by
    rw [ofFile_of_find hfind, hvalid]
  exact load_of_ofFile (findFile?_of_reaches hreaches) hfile

end Config

namespace Command

/-! ## One call -/

/-- The configuration file was made where there was none. -/
structure Makes (tree after : FileTree) : Prop where
  /-- The path led to nothing. -/
  free : tree.reaches ⟨Config.fileName⟩ = false
  /-- The file that the path leads to now is all that the tree has gained. -/
  gained : ∃ place, tree.Gains after place Config.standardText.toUTF8 ∧
    after.find .target ⟨Config.fileName⟩ = .ok (place, .file Config.standardText.toUTF8)
  /-- The standard configuration is loaded from it. -/
  loaded : Config.load after ⟨"."⟩ = .ok ⟨Config.standard, true⟩

theorem Makes.grows {tree after : FileTree} (h : Makes tree after) : tree.Grows after := by
  obtain ⟨place, hgains, _⟩ := h.gained
  exact hgains.toGrows

theorem Makes.reaches {tree after : FileTree} (h : Makes tree after) :
    after.reaches ⟨Config.fileName⟩ = true := by
  obtain ⟨place, _, hfind⟩ := h.gained
  exact FileTree.reaches_eq_true_iff.2 ⟨place, _, hfind⟩

/-- The configuration file cannot be made. -/
def Refuses (tree : FileTree) : Prop :=
  tree.reaches ⟨Config.fileName⟩ = true ∨
    ∃ cause, tree.write ⟨Config.fileName⟩ Config.standardText.toUTF8 = .error cause

/-- What making the file comes to. -/
theorem runInit_cases (colour : Bool) (tree : FileTree) :
    ((runInit colour tree).1.exit = 0 ∧ Makes tree (runInit colour tree).2) ∨
      ((runInit colour tree).1.exit = 2 ∧ Refuses tree ∧ (runInit colour tree).2 = tree) := by
  cases hreaches : tree.reaches ⟨Config.fileName⟩ with
  | true =>
    have hrun : runInit colour tree
        = (.failure "" (Config.fileName ++ " already exists"), tree) := by
      simp only [runInit, hreaches, if_true]
    rw [hrun]
    exact Or.inr ⟨rfl, Or.inl hreaches, rfl⟩
  | false =>
    cases hwrite : tree.write ⟨Config.fileName⟩ Config.standardText.toUTF8 with
    | error cause =>
      have hrun : runInit colour tree = (.failure ""
          ("Failed to write " ++ Config.fileName ++ ": " ++ cause.message), tree) := by
        simp only [runInit, hreaches, hwrite, Bool.false_eq_true, if_false]
      rw [hrun]
      exact Or.inr ⟨rfl, Or.inr ⟨cause, hwrite⟩, rfl⟩
    | ok written =>
      have hafter : (runInit colour tree).2 = written := by
        simp only [runInit, hreaches, hwrite, Bool.false_eq_true, if_false]
      have hexit : (runInit colour tree).1.exit = 0 := by
        simp only [runInit, hreaches, hwrite, Bool.false_eq_true, if_false, Outcome.success]
      obtain ⟨place, hgains, hfind⟩ := FileTree.gains_of_write hwrite hreaches
      have hvalid : Config.standard.validate = .ok () := by decide
      rw [hafter]
      exact Or.inl ⟨hexit, hreaches, ⟨place, hgains, hfind⟩, Config.load_of_find hfind hvalid⟩

/-- Arguments ask for the configuration file to be made. -/
def asksInit (texts : List String) : Bool :=
  match ofArguments texts with
  | .ok (some .init) => true
  | _ => false

/-- A call leaves the tree as it is, or makes the configuration file as it was asked to. -/
theorem call_init_cases (colour : Bool) (tree : FileTree) (texts : List String) :
    (asksInit texts = true ∧ (call colour tree texts).1.exit = 0 ∧
        Makes tree (call colour tree texts).2) ∨
      ((asksInit texts = true → (call colour tree texts).1.exit = 2 ∧ Refuses tree) ∧
        (call colour tree texts).2 = tree) := by
  unfold asksInit call
  cases ofArguments texts with
  | error reply => exact Or.inr ⟨nofun, rfl⟩
  | ok command =>
    rcases command with _ | arguments | _
    · exact Or.inr ⟨nofun, rfl⟩
    · exact Or.inr ⟨nofun, rfl⟩
    · rcases runInit_cases colour tree with ⟨hexit, hmakes⟩ | ⟨hexit, hrefuses, htree⟩
      · exact Or.inl ⟨rfl, hexit, hmakes⟩
      · exact Or.inr ⟨fun _ => ⟨hexit, hrefuses⟩, htree⟩

theorem call_grows (colour : Bool) (tree : FileTree) (texts : List String) :
    tree.Grows (call colour tree texts).2 := by
  rcases call_init_cases colour tree texts with ⟨_, _, hmakes⟩ | ⟨_, htree⟩
  · exact hmakes.grows
  · rw [htree]
    exact .refl tree

/-! ## Many calls -/

/-- A call: whether it uses colours, and its arguments. -/
structure Call where
  colour : Bool
  texts : List String

/-- Calls one after the other, each with what it shows, and the tree that they leave. -/
def calls (tree : FileTree) : List Call → List (Call × Outcome) × FileTree
  | [] => ([], tree)
  | next :: more =>
    let (outcome, between) := call next.colour tree next.texts
    let (shown, last) := calls between more
    ((next, outcome) :: shown, last)

/-- A call was asked to make the configuration file, and went well. -/
def made (shown : Call × Outcome) : Bool := asksInit shown.1.texts && shown.2.exit == 0

theorem made_eq_false {next : Call} {outcome : Outcome}
    (h : asksInit next.texts = true → outcome.exit = 2) : made (next, outcome) = false := by
  rw [made]
  cases hasks : asksInit next.texts with
  | false => rfl
  | true =>
    rw [h hasks]
    rfl

theorem calls_append (tree : FileTree) (first second : List Call) :
    calls tree (first ++ second) =
      ((calls tree first).1 ++ (calls (calls tree first).2 second).1,
        (calls (calls tree first).2 second).2) := by
  induction first generalizing tree with
  | nil => rfl
  | cons next more ih => simp only [List.cons_append, calls, ih]

/-- By calls a tree only grows. -/
theorem calls_grows (tree : FileTree) (list : List Call) : tree.Grows (calls tree list).2 := by
  induction list generalizing tree with
  | nil => exact .refl tree
  | cons next more ih => exact (call_grows next.colour tree next.texts).trans (ih _)

/-- Where the path leads to something, no call makes the configuration file. -/
theorem countP_made_of_reaches {tree : FileTree} (h : tree.reaches ⟨Config.fileName⟩ = true)
    (list : List Call) : (calls tree list).1.countP made = 0 := by
  induction list generalizing tree with
  | nil => rfl
  | cons next more ih =>
    have hafter := (call_grows next.colour tree next.texts).reaches h
    have hnot : made (next, (call next.colour tree next.texts).1) = false := by
      rcases call_init_cases next.colour tree next.texts with ⟨_, _, hmakes⟩ | ⟨hexit, _⟩
      · rw [hmakes.free] at h
        cases h
      · exact made_eq_false fun hasks => (hexit hasks).1
    rw [calls, List.countP_cons_of_neg (by rw [hnot]; exact Bool.false_ne_true), ih hafter]

/-- Of many calls at most one makes the configuration file. -/
theorem countP_made_le_one (tree : FileTree) (list : List Call) :
    (calls tree list).1.countP made ≤ 1 := by
  induction list generalizing tree with
  | nil => exact Nat.zero_le 1
  | cons next more ih =>
    rw [calls, List.countP_cons]
    rcases call_init_cases next.colour tree next.texts with ⟨_, _, hmakes⟩ | ⟨hexit, htree⟩
    · rw [countP_made_of_reaches hmakes.reaches more]
      split <;> simp
    · rw [made_eq_false fun hasks => (hexit hasks).1, htree]
      exact ih tree

/-- A file that a path leads to after some calls is still there after more of them. -/
theorem find_calls_append {tree : FileTree} {earlier : List Call} {path : Path} {place : Place}
    {content : ByteArray}
    (h : (calls tree earlier).2.find .target path = .ok (place, .file content))
    (later : List Call) :
    (calls tree (earlier ++ later)).2.find .target path = .ok (place, .file content) := by
  rw [calls_append]
  exact (calls_grows _ later).find_file (by decide) h

/-- A call that is to make the configuration file and ends well has made it where its path led
to nothing, which is all that the tree has gained, and the standard configuration is loaded
from it; a call that fails leaves the tree as it is.  In any sequence of calls at most one
makes the file, and no file is overwritten by the calls that follow. -/
theorem init_safe (tree : FileTree) :
    (∀ colour texts, ofArguments texts = .ok (some .init) →
      ((call colour tree texts).1.exit = 0 → Makes tree (call colour tree texts).2) ∧
      ((call colour tree texts).1.exit ≠ 0 →
        Refuses tree ∧ (call colour tree texts).2 = tree)) ∧
    ∀ list,
      (calls tree list).1.countP made ≤ 1 ∧
      ∀ earlier later, list = earlier ++ later → ∀ path place content,
        (calls tree earlier).2.find .target path = .ok (place, .file content) →
          (calls tree list).2.find .target path = .ok (place, .file content) := by
  refine ⟨?_, fun list => ⟨countP_made_le_one tree list, ?_⟩⟩
  · intro colour texts haccepted
    have hasks : asksInit texts = true := by rw [asksInit, haccepted]
    rcases call_init_cases colour tree texts with ⟨_, hexit, hmakes⟩ | ⟨hrefused, htree⟩
    · exact ⟨fun _ => hmakes, fun hne => absurd hexit hne⟩
    · obtain ⟨hexit, hrefuses⟩ := hrefused hasks
      refine ⟨fun hzero => ?_, fun _ => ⟨hrefuses, htree⟩⟩
      rw [hexit] at hzero
      cases hzero
  · rintro earlier later rfl path place content hfind
    exact find_calls_append hfind later

/-- Where the link of an example leads. -/
def danglingPlace : Place := [⟨['c'], by decide⟩, ⟨['r'], by decide⟩]

/-- A tree in which the configuration file is a link that leads to nothing. -/
def danglingTree : FileTree :=
  ⟨[(⟨Config.fileName.toList, namesEntry_fileName⟩, .link ⟨"c/r"⟩),
    (⟨['c'], by decide⟩, .folder [])], []⟩

/-- The file is made where the link leads, once, and stays. -/
theorem init_safe_dangling :
    let twice : List Call := [⟨false, ["init"]⟩, ⟨true, ["scan", "-v"]⟩, ⟨true, ["init"]⟩]
    ofArguments ["init"] = .ok (some .init) ∧
      danglingTree.at? danglingPlace = none ∧
      (call false danglingTree ["init"]).1.exit = 0 ∧
      Makes danglingTree (call false danglingTree ["init"]).2 ∧
      (calls danglingTree twice).1.countP made = 1 ∧
      (calls danglingTree twice).2.find .target ⟨"c/r"⟩
        = .ok (danglingPlace, .file Config.standardText.toUTF8) := by
  intro twice
  have haccepted : ofArguments ["init"] = .ok (some .init) := rfl
  have hexit : (call false danglingTree ["init"]).1.exit = 0 := by decide +kernel
  obtain ⟨hone, hmany⟩ := init_safe danglingTree
  obtain ⟨hmost, hkept⟩ := hmany twice
  have hleast : 1 ≤ (calls danglingTree twice).1.countP made := by decide +kernel
  have hfind : (calls danglingTree [⟨false, ["init"]⟩]).2.find .target ⟨"c/r"⟩
      = .ok (danglingPlace, .file Config.standardText.toUTF8) := rfl
  exact ⟨haccepted, rfl, hexit, (hone false _ haccepted).1 hexit,
    Nat.le_antisymm hmost hleast, hkept [⟨false, ["init"]⟩] _ rfl _ _ _ hfind⟩

end Command

end FeatureDigest
