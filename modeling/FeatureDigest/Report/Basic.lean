import FeatureDigest.Gherkin.Digest
import FeatureDigest.Path.Relative
import FeatureDigest.Scan.FeatureFile

/-!
# Reports

A report holds the digest of every feature file that was found below a root.  Each
file is digested by itself, so that no context leaks from one to the next; the
summary is all digests in one, and the totals count what the summary holds.
-/

set_option autoImplicit false

namespace FeatureDigest

open Gherkin (Digest)

/-- The digest of one feature file. -/
structure FileReport where
  path : Path
  digest : Digest
  deriving DecidableEq, Repr, Inhabited

/-- The digest of a feature file. -/
def FileReport.ofFile (file : FeatureFile) : FileReport :=
  ⟨file.path, Digest.ofLines file.lines⟩

/-- What a scan of a root found. -/
structure Report where
  root : Path
  files : List FileReport
  /-- How many paths could not be accessed. -/
  skipped : Nat
  deriving DecidableEq, Repr, Inhabited

/-- The counts of a report. -/
structure Totals where
  files : Nat
  /-- The lines that are not blank. -/
  lines : Nat
  /-- The lines that state an item. -/
  classified : Nat
  features : Nat
  scenarios : Nat
  states : Nat
  actions : Nat
  outcomes : Nat
  deriving DecidableEq, Repr, Inhabited

namespace Report

/-- The report of the files that were found below a root. -/
def ofFiles (root : Path) (files : List FeatureFile) (skipped : Nat) : Report :=
  ⟨root, files.map FileReport.ofFile, skipped⟩

/-- The digests of all files in one. -/
def summary (report : Report) : Digest := Digest.concat (report.files.map FileReport.digest)

/-- The counts of a report. -/
def totals (report : Report) : Totals :=
  let summary := report.summary
  { files := report.files.length
    lines := summary.lines.length
    classified := summary.classified
    features := summary.features.length
    scenarios := summary.scenarios.length
    states := summary.states.length
    actions := summary.actions.length
    outcomes := summary.outcomes.length }

/-- The path under which a file is listed: relative to the root when it lies below
it. -/
def displayPath (report : Report) (file : FileReport) : Path :=
  file.path.relativeTo report.root

end Report

end FeatureDigest
