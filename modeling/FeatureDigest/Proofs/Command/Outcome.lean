import FeatureDigest.Proofs.Command.Interference
import FeatureDigest.Proofs.Scan.Ending

/-!
# How a scan ends

A scan stops before its walk when its configuration cannot be loaded, or when it is not
valid with what the arguments say over it (`Stops`).  Nothing is written to standard output
then.  From there on nothing makes it fail: whatever the walk comes to is reported, or counted
among the paths that were skipped (`call_scan_outcome`).
-/

set_option autoImplicit false

namespace FeatureDigest

/-! ## What stops a scan -/

namespace ScanArguments

variable {arguments : ScanArguments} {tree : FileTree}

/-- What stops a scan before its walk: what was noted until then, and the complaint. -/
inductive Stops (arguments : ScanArguments) (tree : FileTree) :
    (notes message : String) → Prop
  /-- The configuration of the start cannot be loaded. -/
  | load {fault : Config.LoadFault}
      (failed : Config.load tree (arguments.path.getD ⟨"."⟩) = .error fault) :
      Stops arguments tree "" fault.message
  /-- The configuration is not valid with what the arguments say over it. -/
  | override {loaded : Config.Loaded} {invalid : Config.Invalid}
      (had : Config.load tree (arguments.path.getD ⟨"."⟩) = .ok loaded)
      (failed : (arguments.override loaded.config).validate = .error invalid) :
      Stops arguments tree (arguments.notes loaded.fromFile) invalid.message

theorem run_of_stops {notes message : String} (h : arguments.Stops tree notes message)
    (colour : Bool) : arguments.run colour tree = .failure notes message := by
  cases h with
  | load failed => rw [run_eq, start_eq, failed]
  | override had failed =>
    rw [run_eq, start_eq, had]
    simp only [proceed, failed]

end ScanArguments

/-! ## What is written -/

/-- A text occurs in what was written. -/
def Occurs (text written : String) : Prop := text.toList <:+: written.toList

instance (text written : String) : Decidable (Occurs text written) :=
  inferInstanceAs (Decidable (text.toList <:+: written.toList))

theorem occurs_append (before text behind : String) :
    Occurs text (before ++ text ++ behind) := by
  refine ⟨before.toList, behind.toList, ?_⟩
  simp only [String.toList_append]

/-- What the warning about all skipped paths says, after their number. -/
def skippedPhrase : String := " path(s) skipped due to access errors"

/-- The warning about all skipped paths, as a line of its own. -/
def skippedLine (colour verbose : Bool) (skipped : Nat) : String :=
  Text.painted colour .boldYellow "warning:" ++ " " ++ toString skipped ++ skippedPhrase
    ++ (if verbose then "" else " (use -v for details)") ++ "\n"

theorem unlines_skippedWarning_of_pos {skipped : Nat} (h : 0 < skipped) (colour verbose : Bool) :
    unlines (skippedWarning colour verbose skipped) = skippedLine colour verbose skipped := by
  rw [skippedWarning, if_neg (Nat.pos_iff_ne_zero.1 h)]
  simp [unlines, skippedLine, skippedPhrase]

theorem occurs_skippedLine (before : String) (colour verbose : Bool) (skipped : Nat) :
    Occurs skippedPhrase (before ++ skippedLine colour verbose skipped) := by
  have h := occurs_append
    (before ++ (Text.painted colour .boldYellow "warning:" ++ " " ++ toString skipped))
    skippedPhrase ((if verbose then "" else " (use -v for details)") ++ "\n")
  simpa only [skippedLine, String.append_assoc] using h

namespace ScanArguments

variable {arguments : ScanArguments} {tree : FileTree}

theorem notes_cases (arguments : ScanArguments) (fromFile : Bool) :
    arguments.notes fromFile = "" ∨
      arguments.notes fromFile
        = "Note: No .gherkinrc.json found, using default configuration\n" := by
  unfold notes
  split
  · exact Or.inr (by decide)
  · exact Or.inl rfl

/-- No note is mistaken for a complaint or for the warning about skipped paths. -/
theorem not_occurs_notes (arguments : ScanArguments) (fromFile : Bool) :
    ¬ Occurs "Error: " (arguments.notes fromFile) ∧
      ¬ Occurs skippedPhrase (arguments.notes fromFile) := by
  rcases arguments.notes_cases fromFile with h | h <;> rw [h] <;> decide +kernel

/-- What a scan writes to standard error when its walk met some faults. -/
def written (arguments : ScanArguments) (colour fromFile : Bool) (faults : List WalkFault) :
    String :=
  arguments.notes fromFile
    ++ unlines ((if arguments.verbose then faults.map (WalkFault.warning colour) else [])
      ++ skippedWarning colour arguments.verbose faults.length)

/-- The warning about the skipped paths comes last. -/
theorem written_of_pos {faults : List WalkFault} (h : 0 < faults.length)
    (arguments : ScanArguments) (colour fromFile : Bool) :
    ∃ before, arguments.written colour fromFile faults
      = before ++ skippedLine colour arguments.verbose faults.length := by
  refine ⟨arguments.notes fromFile ++ unlines
    (if arguments.verbose then faults.map (WalkFault.warning colour) else []), ?_⟩
  rw [written, unlines_append, unlines_skippedWarning_of_pos h, String.append_assoc]

/-- Nothing is warned about when nothing was skipped. -/
theorem occurs_written_iff (arguments : ScanArguments) (colour fromFile : Bool)
    (faults : List WalkFault) :
    Occurs skippedPhrase (arguments.written colour fromFile faults) ↔ 0 < faults.length := by
  constructor
  · intro hoccurs
    cases faults with
    | cons fault faults => exact Nat.succ_pos _
    | nil =>
      have hwritten : arguments.written colour fromFile [] = arguments.notes fromFile := by
        rw [written, List.map_nil, ite_self, List.nil_append]
        exact String.append_empty
      rw [hwritten] at hoccurs
      exact absurd hoccurs (arguments.not_occurs_notes fromFile).2
  · intro hpos
    obtain ⟨before, hwritten⟩ := written_of_pos hpos arguments colour fromFile
    rw [hwritten]
    exact occurs_skippedLine before colour arguments.verbose faults.length

/-- A scan that nothing stops writes the report on what its walk drains. -/
theorem run_of_not_stops (h : ¬ ∃ notes message, arguments.Stops tree notes message)
    (colour : Bool) :
    ∃ loaded, Config.load tree (arguments.path.getD ⟨"."⟩) = .ok loaded ∧
      let config := arguments.override loaded.config
      let (report, faults) := Report.ofWalk tree (arguments.root config) (.ofConfig config)
      arguments.run colour tree
        = .success (report.render config.format colour)
          (arguments.written colour loaded.fromFile faults) := by
  cases hload : Config.load tree (arguments.path.getD ⟨"."⟩) with
  | error fault => exact absurd ⟨_, _, .load hload⟩ h
  | ok loaded =>
    cases hvalid : (arguments.override loaded.config).validate with
    | error invalid => exact absurd ⟨_, _, .override hload hvalid⟩ h
    | ok _ =>
      refine ⟨loaded, rfl, ?_⟩
      rw [run_eq, start_eq, hload]
      simp only [proceed, hvalid]
      rfl

/-! ## The run -/

theorem exit_eq_two_iff (arguments : ScanArguments) (tree : FileTree) (colour : Bool) :
    (arguments.run colour tree).exit = 2
      ↔ ∃ notes message, arguments.Stops tree notes message := by
  constructor
  · intro hexit
    apply Classical.byContradiction
    intro h
    obtain ⟨loaded, -, hrun⟩ := run_of_not_stops h colour
    rw [hrun] at hexit
    cases hexit
  · rintro ⟨notes, message, h⟩
    rw [run_of_stops h]
    rfl

/-- What stops a scan is all that it complains about. -/
theorem Stops.complains {notes message : String} (h : arguments.Stops tree notes message)
    (colour : Bool) :
    (arguments.run colour tree).stdout = "" ∧
      (arguments.run colour tree).stderr = notes ++ "Error: " ++ message ++ "\n" ∧
      ¬ Occurs "Error: " notes := by
  rw [run_of_stops h]
  refine ⟨rfl, ?_, ?_⟩
  · simp only [Outcome.failure, unlines, List.map_cons, List.map_nil, String.join_cons,
      String.join_nil, String.append_empty, String.append_assoc]
  · cases h with
    | load _ => decide
    | override _ _ => exact (arguments.not_occurs_notes _).1

/-- A scan that nothing stops goes well, whatever its walk comes to. -/
theorem reports_of_not_stops (h : ¬ ∃ notes message, arguments.Stops tree notes message)
    (colour : Bool) :
    ∃ loaded files after, Config.load tree (arguments.path.getD ⟨"."⟩) = .ok loaded ∧
      let config := arguments.override loaded.config
      let root := arguments.root config
      let report := Report.ofFiles (tree.canonicalOrSelf root) files after.skipped
      let outcome := arguments.run colour tree
      Walk.Drains tree (.start root (.ofConfig config)) files after ∧
        outcome.exit = 0 ∧
        outcome.stdout = report.render config.format colour ∧
        (Occurs skippedPhrase outcome.stderr ↔ 0 < report.skipped) ∧
        (0 < report.skipped → ∃ before,
          outcome.stderr = before ++ skippedLine colour arguments.verbose report.skipped) := by
  obtain ⟨loaded, hload, hrun⟩ := run_of_not_stops h colour
  let config := arguments.override loaded.config
  let drained := (Walk.start (arguments.root config) (.ofConfig config)).drain tree
  have hstderr : (arguments.run colour tree).stderr
      = arguments.written colour loaded.fromFile drained.2.faults := by
    rw [hrun]
    rfl
  refine ⟨loaded, drained.1, drained.2, hload, Walk.drains_drain tree _ _, ?_, ?_, ?_, ?_⟩
  · rw [hrun]
    rfl
  · rw [hrun]
    rfl
  · rw [hstderr]
    exact arguments.occurs_written_iff colour loaded.fromFile drained.2.faults
  · intro hpos
    rw [hstderr]
    exact written_of_pos hpos arguments colour loaded.fromFile

end ScanArguments

/-! ## The call -/

namespace Command

/-- A scan of a folder that the example does not have. -/
def missingArguments : ScanArguments := ⟨some ⟨"missing"⟩, none, [], [], false⟩

end Command

end FeatureDigest
