import FeatureDigest.Proofs.Command.Outcome
import FeatureDigest.Proofs.Command.Reading
import FeatureDigest.Proofs.Gherkin.Characters
import FeatureDigest.Proofs.Report.Json
import FeatureDigest.Proofs.Report.Listing

/-!
# Flags that only choose what is shown

The flag for more messages changes what a scan writes to standard error, and the format what
it writes to standard output.  Neither changes what is found, nor how the scan ends
(`flags_only_show`).
-/

set_option autoImplicit false

namespace FeatureDigest

open Text (painted)

/-! ## More messages -/

/-- What every warning about one path starts with. -/
def accessPhrase (colour : Bool) : String :=
  painted colour .boldYellow "warning:" ++ " Cannot access path: "

/-- The line warns about a path that could not be accessed. -/
def isAccessWarning (colour : Bool) (line : List Char) : Bool :=
  (accessPhrase colour).toList.isPrefixOf line

/-- The note on a configuration that comes from no file, as a line if there is one. -/
def noteLines (fromFile : Bool) : List String :=
  if fromFile then [] else ["Note: No .gherkinrc.json found, using default configuration"]

/-- What is written about the paths that could not be accessed, with the flag for more messages
a warning about each of them, and with or without it their number. -/
structure Counts (colour : Bool) (faults : List WalkFault) (quiet verbose : String) : Prop where
  /-- The number is written when there are any, with a hint at the flag. -/
  quiet : quiet = if faults = [] then "" else skippedLine colour false faults.length
  verbose : ∃ fromFile, verbose = unlines (noteLines fromFile
    ++ faults.map (WalkFault.warning colour) ++ skippedWarning colour true faults.length)

namespace Counts

variable {colour : Bool} {faults : List WalkFault} {quiet verbose : String}

theorem warning_eq (colour : Bool) (fault : WalkFault) :
    fault.warning colour = accessPhrase colour
      ++ ("IO error for operation on " ++ fault.path.text ++ ": " ++ fault.cause.message) := by
  have hphrase : " Cannot access path: IO error for operation on "
      = " Cannot access path: " ++ "IO error for operation on " := by decide +kernel
  rw [WalkFault.warning, accessPhrase, hphrase]
  simp only [String.append_assoc]

theorem isAccessWarning_warning (colour : Bool) (fault : WalkFault) :
    isAccessWarning colour (fault.warning colour).toList = true := by
  rw [isAccessWarning, warning_eq, String.toList_append, List.isPrefixOf_iff_prefix]
  exact List.prefix_append _ _

/-- The line with the number is no warning about one path. -/
theorem isAccessWarning_skippedWarning {colour verbose : Bool} {skipped : Nat} {line : String}
    (h : line ∈ skippedWarning colour verbose skipped) :
    isAccessWarning colour line.toList = false := by
  obtain ⟨digit, digits, hdigits⟩ := List.exists_cons_of_ne_nil
    (Nat.toDigits_ne_nil : Nat.toDigits 10 skipped ≠ [])
  have hdigit : digit ≠ 'C' := by
    rintro rfl
    have hmem : 'C' ∈ Nat.toDigits 10 skipped := by
      rw [hdigits]
      exact List.mem_cons_self
    exact Report.not_mem_decimal (by decide) skipped hmem
  rw [skippedWarning] at h
  split at h
  · cases h
  · rw [List.mem_singleton.1 h, isAccessWarning, accessPhrase, ← Bool.not_eq_true,
      List.isPrefixOf_iff_prefix]
    simp only [String.toList_append, Nat.toString_eq_repr, Nat.toList_repr, hdigits,
      List.append_assoc]
    rw [List.prefix_append_right_inj]
    rintro ⟨rest, hrest⟩
    have hphrase : " Cannot access path: ".toList = ' ' :: 'C' :: "annot access path: ".toList := by
      decide
    have hblank : " ".toList = [' '] := by decide
    rw [hphrase, hblank] at hrest
    simp only [List.cons_append, List.nil_append, List.cons.injEq, true_and] at hrest
    exact hdigit hrest.1.symm

theorem newline_not_mem_warningWord (colour : Bool) :
    '\n' ∉ (painted colour .boldYellow "warning:").toList := by
  cases colour <;> decide

theorem newline_not_mem_warning {fault : WalkFault} (hpath : '\n' ∉ fault.path.text.toList)
    (colour : Bool) : '\n' ∉ (fault.warning colour).toList := by
  have hword := newline_not_mem_warningWord colour
  have hmessage : '\n' ∉ fault.cause.message.toList := by
    cases fault.cause <;> decide
  rw [WalkFault.warning]
  simp only [String.toList_append, List.mem_append, not_or]
  exact ⟨⟨⟨⟨hword, by decide⟩, hpath⟩, by decide⟩, hmessage⟩

theorem newline_not_mem_skippedWarning {colour verbose : Bool} {skipped : Nat} {line : String}
    (h : line ∈ skippedWarning colour verbose skipped) : '\n' ∉ line.toList := by
  have hdigits : '\n' ∉ (toString skipped).toList := by
    rw [Nat.toString_eq_repr, Nat.toList_repr]
    exact Report.not_mem_decimal (by decide) skipped
  have hhint : '\n' ∉ (if verbose then "" else " (use -v for details)").toList := by
    cases verbose <;> decide
  rw [skippedWarning] at h
  split at h
  · cases h
  · rw [List.mem_singleton.1 h]
    simp only [String.toList_append, List.mem_append, not_or]
    exact ⟨⟨⟨⟨newline_not_mem_warningWord colour, by decide⟩, hdigits⟩, by decide⟩, hhint⟩

/-- As many lines warn about a path as there are faults, when no path breaks a line. -/
theorem countP_isAccessWarning (h : Counts colour faults quiet verbose)
    (hpaths : ∀ fault ∈ faults, '\n' ∉ fault.path.text.toList) :
    (endedLines [] verbose.toList).countP (isAccessWarning colour) = faults.length := by
  obtain ⟨fromFile, hverbose⟩ := h.verbose
  have hnote : ∀ line ∈ noteLines fromFile,
      '\n' ∉ line.toList ∧ isAccessWarning colour line.toList = false := by
    intro line hline
    cases fromFile with
    | true => cases hline
    | false =>
      rw [List.mem_singleton.1 hline]
      cases colour <;> decide
  have hunbroken : ∀ line ∈ noteLines fromFile ++ faults.map (WalkFault.warning colour)
      ++ skippedWarning colour true faults.length, '\n' ∉ line.toList := by
    intro line hline
    rcases List.mem_append.1 hline with hline | hline
    · rcases List.mem_append.1 hline with hline | hline
      · exact (hnote line hline).1
      · obtain ⟨fault, hfault, rfl⟩ := List.mem_map.1 hline
        exact newline_not_mem_warning (hpaths fault hfault) colour
    · exact newline_not_mem_skippedWarning hline
  have hnone {lines : List String}
      (hlines : ∀ line ∈ lines, isAccessWarning colour line.toList = false) :
      (lines.map String.toList).countP (isAccessWarning colour) = 0 := by
    rw [List.countP_eq_zero]
    intro line hline
    obtain ⟨text, htext, rfl⟩ := List.mem_map.1 hline
    rw [hlines text htext]
    exact Bool.false_ne_true
  have hall : ((faults.map (WalkFault.warning colour)).map String.toList).countP
      (isAccessWarning colour) = faults.length := by
    rw [List.map_map, List.countP_map, List.countP_eq_length]
    intro fault _
    exact isAccessWarning_warning colour fault
  rw [hverbose, endedLines_unlines hunbroken, List.map_append, List.map_append,
    List.countP_append, List.countP_append, hall, hnone fun line hline => (hnote line hline).2,
    hnone fun line hline => isAccessWarning_skippedWarning hline, Nat.zero_add, Nat.add_zero]

end Counts

namespace ScanArguments

variable {arguments : ScanArguments}

theorem written_quiet (h : arguments.verbose = false) (colour fromFile : Bool)
    (faults : List WalkFault) :
    arguments.written colour fromFile faults
      = if faults = [] then "" else skippedLine colour false faults.length := by
  have hnotes : arguments.notes fromFile = "" := by
    rw [notes, h, Bool.false_and, if_neg Bool.false_ne_true]
  rw [written, hnotes, h, if_neg Bool.false_ne_true, List.nil_append, String.empty_append]
  split
  · rename_i hnil
    rw [hnil]
    rfl
  · rename_i hne
    exact unlines_skippedWarning_of_pos (List.length_pos_of_ne_nil hne) colour false

theorem written_verbose (h : arguments.verbose = true) (colour fromFile : Bool)
    (faults : List WalkFault) :
    arguments.written colour fromFile faults
      = unlines (noteLines fromFile ++ faults.map (WalkFault.warning colour)
        ++ skippedWarning colour true faults.length) := by
  have hnotes : arguments.notes fromFile = unlines (noteLines fromFile) := by
    rw [notes, h, Bool.true_and]
    cases fromFile <;> rfl
  rw [written, hnotes, h, if_pos rfl, List.append_assoc, unlines_append (noteLines fromFile)]

/-- The flag for more messages changes what is written to standard error only. -/
theorem run_withVerbose (hquiet : arguments.verbose = false) (colour : Bool)
    (tree : FileTree) :
    ((arguments.withVerbose true).run colour tree).exit = (arguments.run colour tree).exit ∧
      ((arguments.withVerbose true).run colour tree).stdout
        = (arguments.run colour tree).stdout ∧
      ((arguments.run colour tree).exit = 0 → ∃ faults,
        Counts colour faults (arguments.run colour tree).stderr
          ((arguments.withVerbose true).run colour tree).stderr) := by
  have hstart : (arguments.withVerbose true).start = arguments.start := rfl
  rw [run_eq, run_eq, hstart]
  cases Config.load tree arguments.start with
  | error fault =>
    refine ⟨rfl, rfl, fun hzero => ?_⟩
    cases hzero
  | ok loaded =>
    have hconfig : (arguments.withVerbose true).override loaded.config
        = arguments.override loaded.config := rfl
    dsimp only
    rw [hconfig, proceed, proceed]
    cases (arguments.override loaded.config).validate with
    | error invalid =>
      refine ⟨rfl, rfl, fun hzero => ?_⟩
      cases hzero
    | ok _ =>
      let config := arguments.override loaded.config
      let faults := (Report.ofWalk tree (arguments.root config) (.ofConfig config)).2
      refine ⟨rfl, rfl, fun _ => ⟨faults, ?_, loaded.fromFile, ?_⟩⟩
      · exact written_quiet hquiet colour loaded.fromFile faults
      · exact written_verbose rfl colour loaded.fromFile faults

/-! ## Formats -/

/-- The arguments with another format, or with none. -/
def withFormat (format : Option Format) (arguments : ScanArguments) : ScanArguments :=
  { arguments with format }

/-- The format that a scan writes its report in. -/
def formatIn? (arguments : ScanArguments) (tree : FileTree) : Option Format :=
  (Config.load tree arguments.start).toOption.map fun loaded =>
    (arguments.override loaded.config).format

/-- The report of a scan, unless something stops it. -/
def report? (arguments : ScanArguments) (tree : FileTree) : Option Report :=
  match Config.load tree arguments.start with
  | .error _ => none
  | .ok loaded =>
    let config := arguments.override loaded.config
    match config.validate with
    | .error _ => none
    | .ok _ => some (Report.ofWalk tree (arguments.root config) (.ofConfig config)).1

/-- The report does not depend on the format. -/
theorem report?_withFormat (format : Option Format) (tree : FileTree) :
    (arguments.withFormat format).report? tree = arguments.report? tree := rfl

/-- A scan that goes well has a report and a format, and writes the one in the other. -/
theorem stdout_of_exit {colour : Bool} {tree : FileTree}
    (h : (arguments.run colour tree).exit = 0) :
    ∃ report format, arguments.report? tree = some report ∧
      arguments.formatIn? tree = some format ∧
      (arguments.run colour tree).stdout = report.render format colour := by
  have hgoes : ¬ ∃ notes message, arguments.Stops tree notes message := by
    intro hstops
    rw [(arguments.exit_eq_two_iff tree colour).2 hstops] at h
    cases h
  cases hload : Config.load tree arguments.start with
  | error fault => exact absurd ⟨_, _, .load hload⟩ hgoes
  | ok loaded =>
    cases hvalid : (arguments.override loaded.config).validate with
    | error invalid => exact absurd ⟨_, _, .override hload hvalid⟩ hgoes
    | ok _ =>
      let config := arguments.override loaded.config
      refine ⟨(Report.ofWalk tree (arguments.root config) (.ofConfig config)).1, config.format,
        ?_, ?_, ?_⟩
      · simp only [report?, hload, hvalid]
        rfl
      · rw [formatIn?, hload]
        rfl
      · rw [run_eq, hload]
        simp only [proceed, hvalid]
        rfl

/-- The format changes what is written to standard output only. -/
theorem run_withFormat (format : Option Format) (colour : Bool) (tree : FileTree) :
    ((arguments.withFormat format).run colour tree).exit = (arguments.run colour tree).exit ∧
      ((arguments.withFormat format).run colour tree).stderr
        = (arguments.run colour tree).stderr := by
  have hstart : (arguments.withFormat format).start = arguments.start := rfl
  rw [run_eq, run_eq, hstart]
  cases Config.load tree arguments.start with
  | error fault => exact ⟨rfl, rfl⟩
  | ok loaded =>
    have hvalid : ((arguments.withFormat format).override loaded.config).validate
        = (arguments.override loaded.config).validate := rfl
    dsimp only
    rw [proceed, proceed, hvalid]
    cases (arguments.override loaded.config).validate with
    | error invalid => exact ⟨rfl, rfl⟩
    | ok _ => exact ⟨rfl, rfl⟩

/-- Lines and items of a report hold no line feed. -/
theorem unbroken_of_report? {tree : FileTree} {report : Report}
    (h : arguments.report? tree = some report) (hroot : '\n' ∉ report.root.text.toList)
    (hpaths : ∀ file ∈ report.files, '\n' ∉ (report.displayPath file).text.toList) :
    report.Unbroken := by
  refine ⟨hroot, hpaths, ?_⟩
  intro file hfile kind item hitem hmem
  unfold report? at h
  split at h
  · cases h
  · dsimp only at h
    split at h
    · cases h
    · cases h
      obtain ⟨found, hfound, rfl⟩ := List.mem_map.1 hfile
      obtain ⟨line, hline, hchar⟩ := Gherkin.Digest.mem_lines_of_mem_item hitem hmem
      rw [Walk.lines_of_mem_drain hfound] at hline
      exact (Text.mem_text_of_mem_line hline hchar).2 rfl

end ScanArguments

/-- A JSON text and a listing tell of one report. -/
structure Report.Told (report : Report) (colour : Bool) (json text : String) : Prop where
  decoded : Contents.ofJson? json = some report.contents
  listed : text = report.listing colour
  /-- Without colours and line feeds in paths, the files, items and counts are read from the
  listing. -/
  read : colour = false → '\n' ∉ report.root.text.toList →
    (∀ file ∈ report.files, '\n' ∉ (report.displayPath file).text.toList) →
    ListedFile.ofListing text = some (report.files.map report.listed) ∧
      (report.files ≠ [] → listedCounts text
        = some [report.totals.files, report.totals.features, report.totals.scenarios,
            report.totals.states, report.totals.actions, report.totals.outcomes])

theorem ScanArguments.told_of_report? {arguments : ScanArguments} {tree : FileTree}
    {report : Report} (h : arguments.report? tree = some report) (colour : Bool) :
    report.Told colour report.json (report.listing colour) := by
  refine ⟨Report.Contents.ofJson?_json report, rfl, ?_⟩
  rintro rfl hroot hpaths
  have hunbroken := unbroken_of_report? h hroot hpaths
  refine ⟨?_, Report.listedCounts_listing hunbroken⟩
  rw [ListedFile.ofListing, Report.endedLines_listing hunbroken]
  exact ListedFile.read_listingLines report

namespace Command

open ScanArguments

/-- A call of a scan is what the scan runs to, or the answer that its arguments get. -/
theorem call_scan (colour : Bool) (tree : FileTree) (texts : List String) :
    (call colour tree ("scan" :: texts)).1 =
      match ScanArguments.bare.read .nothing texts with
      | .error reply => reply.outcome
      | .ok arguments => arguments.run colour tree := by
  have hscan : ofArguments ("scan" :: texts)
      = (ScanArguments.bare.read .nothing texts).map
        fun arguments => some (.scan arguments) := rfl
  rw [call, hscan]
  cases ScanArguments.bare.read .nothing texts <;> rfl

theorem call_insert_verbose {front back : List String} (hfront : takesFlag front = true)
    (hquiet : givesVerbose (front ++ back) = false) (colour : Bool) (tree : FileTree) :
    let quiet := (call colour tree ("scan" :: (front ++ back))).1
    let verbose := (call colour tree ("scan" :: (front ++ "-v" :: back))).1
    verbose.exit = quiet.exit ∧ verbose.stdout = quiet.stdout ∧
      (quiet.exit = 0 → ∃ faults, Counts colour faults quiet.stderr verbose.stderr) := by
  intro quiet verbose
  have hechoes : Echoes (ScanArguments.bare.read .nothing (front ++ "-v" :: back))
      ((ScanArguments.bare.read .nothing (front ++ back)).map (withVerbose true)) :=
    echoes_insert_verbose hfront hquiet rfl fun _ => rfl
  have hcall : quiet = _ := call_scan colour tree (front ++ back)
  have hinsert : verbose = _ := call_scan colour tree (front ++ "-v" :: back)
  rw [hcall, hinsert]
  cases hread : ScanArguments.bare.read .nothing (front ++ back) with
  | error reply =>
    rw [hread] at hechoes
    generalize ScanArguments.bare.read .nothing (front ++ "-v" :: back) = other at hechoes
    cases hechoes with
    | same =>
      refine ⟨rfl, rfl, fun hexit => ⟨[], ?_, true, ?_⟩⟩
      · cases reply with
        | help topic => rfl
        | version => rfl
        | misuse cause => cases hexit
      · cases reply with
        | help topic => rfl
        | version => rfl
        | misuse cause => cases hexit
    | misuse first second => exact ⟨rfl, rfl, nofun⟩
  | ok arguments =>
    rw [hread] at hechoes
    generalize ScanArguments.bare.read .nothing (front ++ "-v" :: back) = other at hechoes
    cases hechoes with
    | same => exact run_withVerbose (verbose_of_read hquiet hread) colour tree

/-- The flag for more messages, wherever it can stand among arguments without it, changes
neither how a call of a scan ends nor what it writes to standard output, and when the call
ends well the warnings are as many as the number that is written without it.  Another format
changes neither how the call ends nor what it writes to standard error, and the JSON report
holds the files, items and counts that the listing shows. -/
theorem flags_only_show (colour : Bool) (tree : FileTree) :
    (∀ front back, takesFlag front = true → givesVerbose (front ++ back) = false →
      let quiet := (call colour tree ("scan" :: (front ++ back))).1
      let verbose := (call colour tree ("scan" :: (front ++ "-v" :: back))).1
      verbose.exit = quiet.exit ∧ verbose.stdout = quiet.stdout ∧
        (quiet.exit = 0 → ∃ faults, Counts colour faults quiet.stderr verbose.stderr ∧
          ((∀ fault ∈ faults, '\n' ∉ fault.path.text.toList) →
            (endedLines [] verbose.stderr.toList).countP (isAccessWarning colour)
              = faults.length))) ∧
    ∀ texts others arguments format, ofArguments texts = .ok (some (.scan arguments)) →
      ofArguments others = .ok (some (.scan (arguments.withFormat format))) →
      let one := (call colour tree texts).1
      let other := (call colour tree others).1
      other.exit = one.exit ∧ other.stderr = one.stderr ∧
        (one.exit = 0 → arguments.formatIn? tree = some .json →
          (arguments.withFormat format).formatIn? tree = some .text →
          ∃ report : Report, report.Told colour one.stdout other.stdout) := by
  refine ⟨?_, ?_⟩
  · intro front back hfront hquiet quiet verbose
    obtain ⟨hexit, hstdout, hcounts⟩ := call_insert_verbose hfront hquiet colour tree
    refine ⟨hexit, hstdout, fun hgoes => ?_⟩
    obtain ⟨faults, hfaults⟩ := hcounts hgoes
    exact ⟨faults, hfaults, hfaults.countP_isAccessWarning⟩
  · intro texts others arguments format haccepted hother one other
    have hone : one = arguments.run colour tree := by
      simp only [one, call, haccepted]
      rfl
    have htwo : other = (arguments.withFormat format).run colour tree := by
      simp only [other, call, hother]
      rfl
    obtain ⟨hexit, hstderr⟩ := arguments.run_withFormat format colour tree
    rw [hone, htwo]
    refine ⟨hexit, hstderr, fun hgoes hjson htext => ?_⟩
    obtain ⟨report, named, hreport, hnamed, hstdout⟩ := stdout_of_exit hgoes
    obtain ⟨same, shown, hsame, hshown, hlisting⟩ := stdout_of_exit (hexit.trans hgoes)
    rw [report?_withFormat, hreport, Option.some.injEq] at hsame
    rw [hjson, Option.some.injEq] at hnamed
    rw [htext, Option.some.injEq] at hshown
    rw [hstdout, hlisting, ← hsame, ← hnamed, ← hshown]
    exact ⟨report, told_of_report? hreport colour⟩

/-- The arguments of a scan that writes JSON. -/
def jsonArguments : ScanArguments := ⟨none, some .json, [], [], false⟩

/-- A missing root is counted without the flag and warned about with it, and a report is
written in both formats. -/
theorem flags_only_show_openTree :
    takesFlag ["missing"] = true ∧ givesVerbose ["missing"] = false ∧
      (call false openTree ["scan", "missing"]).1.exit = 0 ∧
      (call false openTree ["scan", "missing"]).1.stderr = skippedLine false false 1 ∧
      (∃ faults, Counts false faults (call false openTree ["scan", "missing"]).1.stderr
        (call false openTree ["scan", "missing", "-v"]).1.stderr) ∧
      (call false openTree ["scan", "--format", "json"]).1.exit = 0 ∧
      ∃ report : Report,
        report.Told false (call false openTree ["scan", "--format", "json"]).1.stdout
          (call false openTree ["scan"]).1.stdout := by
  obtain ⟨hverbose, hformat⟩ := flags_only_show false openTree
  have hfront : takesFlag ["missing"] = true := by decide
  have hquiet : givesVerbose ["missing"] = false := by decide
  have hexit : (call false openTree ["scan", "missing"]).1.exit = 0 := by decide +kernel
  have hstderr : (call false openTree ["scan", "missing"]).1.stderr
      = skippedLine false false 1 := by
    decide +kernel
  obtain ⟨faults, hcounts, -⟩ := (hverbose ["missing"] [] hfront hquiet).2.2 hexit
  have haccepted : ofArguments ["scan", "--format", "json"]
      = .ok (some (.scan jsonArguments)) := rfl
  have hother : ofArguments ["scan"] = .ok (some (.scan (jsonArguments.withFormat none))) := rfl
  have hgoes : (call false openTree ["scan", "--format", "json"]).1.exit = 0 := by
    decide +kernel
  have hjson : jsonArguments.formatIn? openTree = some .json := by decide +kernel
  have htext : (jsonArguments.withFormat none).formatIn? openTree = some .text := by
    decide +kernel
  obtain ⟨report, htold⟩ :=
    (hformat _ _ jsonArguments none haccepted hother).2.2 hgoes hjson htext
  exact ⟨hfront, hquiet, hexit, hstderr, ⟨faults, hcounts⟩, hgoes, report, htold⟩

end Command

end FeatureDigest
