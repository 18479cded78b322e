import FeatureDigest.Proofs.Command.Override
import FeatureDigest.Proofs.Command.Plain
import FeatureDigest.Proofs.Config.Plain
import FeatureDigest.Proofs.Report.Colours
import FeatureDigest.Proofs.Scan.Plain

/-!
# Colours are only decoration

Where no name, no text of a file and no argument has an escape character, and no configuration
file spells one, all that the program writes with colours on is what it writes with colours off,
with sequences in it, and it ends as it does then (`colours_only_decorate`).
-/

set_option autoImplicit false

namespace FeatureDigest

open Text (Shades unstyled)

/-! ## Outcomes -/

namespace Outcome

/-- An outcome is another one with sequences in what was written. -/
structure Shades (styled plain : Outcome) : Prop where
  exit : styled.exit = plain.exit
  stdout : Text.Shades styled.stdout plain.stdout
  stderr : Text.Shades styled.stderr plain.stderr

theorem shades_of_plain {outcome : Outcome} (hstdout : Text.Plain outcome.stdout)
    (hstderr : Text.Plain outcome.stderr) : outcome.Shades outcome :=
  ⟨rfl, Text.Shades.of_plain hstdout, Text.Shades.of_plain hstderr⟩

theorem shades_success {styled plain noted other : String} (hstdout : Text.Shades styled plain)
    (hstderr : Text.Shades noted other) : (success styled noted).Shades (success plain other) :=
  ⟨rfl, hstdout, hstderr⟩

theorem shades_failure {notes message : String} (hnotes : Text.Plain notes)
    (hmessage : Text.Plain message) :
    (failure notes message).Shades (failure notes message) := by
  have hline : Text.Plain ("Error: " ++ message) := Text.Plain.append (by decide) hmessage
  exact shades_of_plain Text.plain_empty
    (hnotes.append (plain_unlines (List.forall_mem_singleton.2 hline)))

end Outcome

/-! ## Scans -/

theorem WalkFault.shades_warning {fault : WalkFault} (h : Text.Plain fault.path.text) :
    Shades (fault.warning true) (fault.warning false) := by
  have hphrase : Text.Plain " Cannot access path: IO error for operation on " :=
    Text.plain_ofList.2 (by decide)
  exact (((shades_warningWord.append (.of_plain hphrase)).append (.of_plain h)).append
    (.of_plain Text.plain_colon)).append (.of_plain fault.cause.plain_message)

theorem shades_skippedWarning (verbose : Bool) (skipped : Nat) :
    Shades (unlines (skippedWarning true verbose skipped))
      (unlines (skippedWarning false verbose skipped)) := by
  have hphrase : Text.Plain " path(s) skipped due to access errors" :=
    Text.plain_ofList.2 (by decide)
  have hhint : Text.Plain (if verbose then "" else " (use -v for details)") := by
    cases verbose <;> decide
  unfold skippedWarning
  split
  · exact shades_unlines_nil
  · refine shades_unlines_cons ?_ shades_unlines_nil
    exact (((shades_warningWord.append (.of_plain Text.plain_blank)).append
      (.of_plain (Text.plain_nat skipped))).append (.of_plain hphrase)).append (.of_plain hhint)

variable {tree : FileTree} {arguments : ScanArguments}

theorem FileTree.Plain.canonicalOrSelf (h : tree.Plain) {path : Path}
    (hpath : Text.Plain path.text) : Text.Plain (tree.canonicalOrSelf path).text := by
  rw [FileTree.canonicalOrSelf]
  cases hfound : tree.canonical path with
  | error fault => exact hpath
  | ok found => exact h.canonical hfound

/-- Neither the report on a tree without escape characters has one, nor the path of a fault. -/
theorem Report.plain_ofWalk (h : tree.Plain) {root : Path} (hroot : Text.Plain root.text)
    (selection : Selection) :
    (ofWalk tree root selection).1.Plain ∧
      ∀ fault ∈ (ofWalk tree root selection).2, Text.Plain fault.path.text := by
  obtain ⟨hfiles, hwalk⟩ := Walk.plain_drain h hroot selection
  refine ⟨⟨h.canonicalOrSelf hroot, ?_, ?_⟩, hwalk.fault⟩
  · intro file hfile
    obtain ⟨found, hfound, rfl⟩ := List.mem_map.1 hfile
    exact (hfiles found hfound).path
  · intro file hfile kind item hitem hc
    obtain ⟨found, hfound, rfl⟩ := List.mem_map.1 hfile
    obtain ⟨line, hline, hmem⟩ := Gherkin.Digest.mem_lines_of_mem_item hitem hc
    exact (hfiles found hfound).line line hline hmem

theorem Report.Plain.shades_render {report : Report} (h : report.Plain) (format : Format) :
    Shades (report.render format true) (report.render format false) := by
  cases format with
  | text => exact h.shades_listingWith report.totals
  | json =>
    have hline : Text.Plain "\n" := by decide
    exact .of_plain (report.toValue.plain_render.append hline)

namespace ScanArguments

theorem plain_notes (arguments : ScanArguments) (fromFile : Bool) :
    Text.Plain (arguments.notes fromFile) := by
  unfold notes
  split <;> decide

theorem Plain.override (h : arguments.Plain) {config : Config} (hconfig : config.Plain) :
    (arguments.override config).Plain := by
  refine ⟨hconfig.root, ?_⟩
  intro entry hentry
  rcases List.mem_append.1 hentry with hentry | hentry
  · exact hconfig.ignores entry hentry
  · exact h.ignores entry hentry

theorem Plain.root (h : arguments.Plain) {config : Config} (hconfig : config.Plain) :
    Text.Plain (arguments.root config).text := by
  unfold ScanArguments.root
  cases hpath : arguments.path with
  | none => exact hconfig.root
  | some path => exact h.path path hpath

theorem Plain.shades_proceed (h : arguments.Plain) (htree : tree.Plain) {notes : String}
    (hnotes : Text.Plain notes) {config : Config} (hconfig : config.Plain) :
    (arguments.proceed true tree notes config).Shades
      (arguments.proceed false tree notes config) := by
  unfold proceed
  cases hvalid : config.validate with
  | error invalid => exact Outcome.shades_failure hnotes (hconfig.invalid hvalid)
  | ok _ =>
    have hwalk := Report.plain_ofWalk htree (h.root hconfig) (Selection.ofConfig config)
    generalize Report.ofWalk tree (arguments.root config) (.ofConfig config) = walked
      at hwalk ⊢
    obtain ⟨report, faults⟩ := walked
    obtain ⟨hreport, hfaults⟩ := hwalk
    have hwarnings :
        Shades (unlines (if arguments.verbose then faults.map (WalkFault.warning true) else []))
          (unlines (if arguments.verbose then faults.map (WalkFault.warning false) else [])) := by
      split
      · exact shades_unlines_map fun fault hfault =>
          WalkFault.shades_warning (hfaults fault hfault)
      · exact shades_unlines_nil
    apply Outcome.shades_success (hreport.shades_render config.format)
    exact (Shades.of_plain hnotes).append
      (shades_unlines_append hwarnings (shades_skippedWarning arguments.verbose report.skipped))

/-- A scan writes with colours what it writes without, with sequences in it. -/
theorem Plain.shades_run (h : arguments.Plain) (htree : tree.Plain)
    (htame : ∀ folder text, tree.readText (Config.fileIn folder) = .ok text →
      Json.Tame text.toList) :
    (arguments.run true tree).Shades (arguments.run false tree) := by
  have hload := Config.plain_load arguments.start htame
  rw [run_eq, run_eq]
  cases hloaded : Config.load tree arguments.start with
  | error fault =>
    rw [hloaded] at hload
    exact Outcome.shades_failure Text.plain_empty hload
  | ok loaded =>
    rw [hloaded] at hload
    exact h.shades_proceed htree (arguments.plain_notes loaded.fromFile) (h.override hload)

end ScanArguments

/-! ## Calls -/

theorem HelpTopic.plain_lines (topic : HelpTopic) : ∀ line ∈ topic.lines, Text.Plain line := by
  cases topic
  all_goals
    simp only [HelpTopic.lines, List.forall_mem_cons]
    repeat' apply And.intro
  any_goals with_reducible apply Text.Plain.append
  all_goals first | exact Text.plain_ofList.2 (by decide +kernel) | exact nofun

theorem Reply.shades_outcome (reply : Reply) : reply.outcome.Shades reply.outcome := by
  cases reply with
  | help topic =>
    exact Outcome.shades_of_plain (plain_unlines topic.plain_lines) Text.plain_empty
  | version => exact Outcome.shades_of_plain (by decide) Text.plain_empty
  | misuse cause =>
    have hline : Text.Plain ("error: " ++ cause.message) := by cases cause <;> decide
    exact Outcome.shades_of_plain Text.plain_empty
      (plain_unlines (List.forall_mem_singleton.2 hline))

/-- Making a configuration file leaves the same tree with colours and without. -/
theorem shades_runInit (tree : FileTree) :
    (runInit true tree).1.Shades (runInit false tree).1 ∧
      (runInit true tree).2 = (runInit false tree).2 := by
  unfold runInit
  dsimp only
  split
  · exact ⟨Outcome.shades_failure Text.plain_empty (by decide), rfl⟩
  · cases tree.write ⟨Config.fileName⟩ Config.standardText.toUTF8 with
    | error cause =>
      have hphrase : Text.Plain ("Failed to write " ++ Config.fileName ++ ": ") := by decide
      exact ⟨Outcome.shades_failure Text.plain_empty (hphrase.append cause.plain_message), rfl⟩
    | ok written =>
      have hphrase : Text.Plain ("Created " ++ Config.fileName) := by decide
      have hline := ((Shades.painted .green plain_successMark).append
        (.of_plain Text.plain_blank)).append (Shades.painted .green hphrase)
      exact ⟨Outcome.shades_success (shades_unlines_cons hline shades_unlines_nil)
        (.of_plain Text.plain_empty), rfl⟩

namespace Command

/-- A call writes with colours what it writes without, with sequences in it. -/
theorem shades_call (htree : tree.Plain)
    (htame : ∀ folder text, tree.readText (Config.fileIn folder) = .ok text →
      Json.Tame text.toList)
    {texts : List String} (htexts : ∀ text ∈ texts, Text.Plain text) :
    (call true tree texts).1.Shades (call false tree texts).1 ∧
      (call true tree texts).2 = (call false tree texts).2 := by
  have hcommand := plain_ofArguments htexts
  unfold call
  cases hof : ofArguments texts with
  | error reply => exact ⟨reply.shades_outcome, rfl⟩
  | ok command =>
    rw [hof] at hcommand
    rcases command with _ | arguments | _
    · exact ⟨(Reply.help .program).shades_outcome, rfl⟩
    · exact ⟨hcommand.shades_run htree htame, rfl⟩
    · exact shades_runInit tree

/-- Deleting the sequences from a listing with colours gives the listing without, for whatever
counts stand in its last line, and JSON has no colours.  Deleting them from all that the program
writes with colours gives what it writes without, and it ends in the same way and leaves the same
tree. -/
theorem colours_only_decorate :
    (∀ report : Report, report.Plain →
      unstyled (report.listing true).toList = (report.listing false).toList ∧
        (∀ totals, unstyled (report.listingWith totals true).toList
          = (report.listingWith totals false).toList) ∧
        report.render .json true = report.render .json false) ∧
    ∀ (tree : FileTree) (texts : List String), tree.Plain →
      (∀ folder text, tree.readText (Config.fileIn folder) = .ok text →
        Json.Tame text.toList) →
      (∀ text ∈ texts, Text.Plain text) →
      let styled := call true tree texts
      let plain := call false tree texts
      styled.1.exit = plain.1.exit ∧ styled.2 = plain.2 ∧
        unstyled styled.1.stdout.toList = plain.1.stdout.toList ∧
        unstyled styled.1.stderr.toList = plain.1.stderr.toList := by
  constructor
  · intro report hreport
    have hlisting (totals : Totals) := (hreport.shades_listingWith totals).unstyled_eq
    refine ⟨?_, hlisting, rfl⟩
    rw [report.listing_eq, report.listing_eq]
    exact hlisting report.totals
  · intro tree texts htree htame htexts styled plain
    obtain ⟨hshades, hsame⟩ := shades_call htree htame htexts
    exact ⟨hshades.exit, hsame, hshades.stdout.unstyled_eq, hshades.stderr.unstyled_eq⟩

/-- A report on one file, with an item and an empty one. -/
def pairReport : Report :=
  ⟨⟨"/"⟩, [⟨⟨"/a"⟩, ⟨["Given b", "When "], [], [], ["b"], [""], []⟩⟩], 0⟩

/-- A configuration in which a backslash stands in front of what would spell an escape
character. -/
def pairText : String := "[\"./\",[\"f\"],[\"\\\\u001b\"]]"

/-- A tree with that configuration and one feature file. -/
def pairTree : FileTree :=
  ⟨[(⟨Config.fileName.toList, namesEntry_fileName⟩, .file pairText.toUTF8),
    (⟨['d', '.', 'f'], by decide⟩, .file "Given x".toUTF8)], []⟩

/-- All that there is in the tree: the top, and its entries. -/
theorem pairTree_cases {place : Place} {node : Node} (h : pairTree.at? place = some node) :
    (place = [] ∧ node = pairTree.top) ∨
      ∃ name, place = [name] ∧ (name, node) ∈ pairTree.entries := by
  cases place with
  | nil => exact Or.inl ⟨rfl, (Option.some.inj h).symm⟩
  | cons name place =>
    rw [FileTree.at?, Node.at?] at h
    split at h
    · rename_i child hchild
      have hmem : (name, child) ∈ pairTree.entries := Entries.mem_of_find? hchild
      have hleaf : child.entries = [] := by
        simp only [pairTree, List.mem_cons, List.not_mem_nil, or_false, Prod.mk.injEq] at hmem
        rcases hmem with ⟨_, rfl⟩ | ⟨_, rfl⟩ <;> rfl
      cases place with
      | nil =>
        cases h
        exact Or.inr ⟨name, rfl, hmem⟩
      | cons second place =>
        rw [Node.at?, hleaf, Entries.find?_nil] at h
        cases h
    · cases h

theorem pairTree_text {place : Place} {content : ByteArray} {text : String}
    (h : pairTree.at? place = some (.file content))
    (htext : String.fromUTF8? content = some text) : text = pairText ∨ text = "Given x" := by
  rcases pairTree_cases h with ⟨_, htop⟩ | ⟨name, _, hmem⟩
  · cases htop
  · simp only [pairTree, List.mem_cons, List.not_mem_nil, or_false, Prod.mk.injEq,
      Node.file.injEq] at hmem
    rcases hmem with ⟨_, rfl⟩ | ⟨_, rfl⟩
    · rw [fromUTF8?_toUTF8, Option.some.injEq] at htext
      exact Or.inl htext.symm
    · rw [fromUTF8?_toUTF8, Option.some.injEq] at htext
      exact Or.inr htext.symm

theorem pairTree_plain : pairTree.Plain := by
  refine ⟨nofun, ?_, ?_⟩
  · intro place node hat name hname
    rcases pairTree_cases hat with ⟨rfl, _⟩ | ⟨entry, rfl, hmem⟩
    · cases hname
    · have hnames : ∀ entry ∈ pairTree.entries, Text.escape ∉ entry.1.piece := by decide +kernel
      rw [List.mem_singleton.1 hname]
      exact hnames _ hmem
  · intro place content text hat htext
    rcases pairTree_text hat htext with rfl | rfl <;> decide

theorem pairTree_tame {folder : Path} {text : String}
    (h : pairTree.readText (Config.fileIn folder) = .ok text) : Json.Tame text.toList := by
  obtain ⟨place, content, hat, htext⟩ := FileTree.exists_of_readText h
  rcases pairTree_text hat htext with rfl | rfl <;> decide

/-- A listing with an empty item, and a scan that is warned about its root. -/
theorem colours_only_decorate_pair :
    pairReport.Plain ∧ pairTree.Plain ∧
      (∀ folder text, pairTree.readText (Config.fileIn folder) = .ok text →
        Json.Tame text.toList) ∧
      unstyled (pairReport.listing true).toList = (pairReport.listing false).toList ∧
      (call true pairTree ["scan", "-v", "b"]).1.stderr
        ≠ (call false pairTree ["scan", "-v", "b"]).1.stderr ∧
      unstyled (call true pairTree ["scan", "-v", "b"]).1.stderr.toList
        = (call false pairTree ["scan", "-v", "b"]).1.stderr.toList := by
  obtain ⟨hreports, hcalls⟩ := colours_only_decorate
  have hreport : pairReport.Plain := by
    refine ⟨by decide, by decide, ?_⟩
    intro file hfile kind
    rw [List.mem_singleton.1 hfile]
    rcases kind with _ | _ | (_ | _ | _) <;> decide
  have htexts : ∀ text ∈ ["scan", "-v", "b"], Text.Plain text := by decide
  have htame (folder : Path) (text : String)
      (h : pairTree.readText (Config.fileIn folder) = .ok text) : Json.Tame text.toList :=
    pairTree_tame h
  have hdiffers : (call true pairTree ["scan", "-v", "b"]).1.stderr
      ≠ (call false pairTree ["scan", "-v", "b"]).1.stderr := by
    decide +kernel
  exact ⟨hreport, pairTree_plain, htame, (hreports pairReport hreport).1, hdiffers,
    (hcalls pairTree _ pairTree_plain htame htexts).2.2.2⟩

end Command

end FeatureDigest
