import FeatureDigest.Config.Basic
import FeatureDigest.Report.Listing

/-!
# Reports as JSON

A report as one JSON value, and a report in either format.
-/

set_option autoImplicit false

namespace FeatureDigest

/-- A digest as a JSON value. -/
def Gherkin.Digest.toValue (digest : Gherkin.Digest) : Json.Value :=
  .object
    [("files", .texts digest.lines),
     ("features", .texts digest.features),
     ("scenarios", .texts digest.scenarios),
     ("states", .texts digest.states),
     ("actions", .texts digest.actions),
     ("outcomes", .texts digest.outcomes)]

/-- The digest of a file as a JSON value. -/
def FileReport.toValue (file : FileReport) : Json.Value :=
  .object [("path", .text file.path.text), ("gherkins", file.digest.toValue)]

/-- Counts as a JSON value. -/
def Totals.toValue (totals : Totals) : Json.Value :=
  .object
    [("files", .number totals.files),
     ("lines", .number totals.lines),
     ("classified", .number totals.classified),
     ("features", .number totals.features),
     ("scenarios", .number totals.scenarios),
     ("states", .number totals.states),
     ("actions", .number totals.actions),
     ("outcomes", .number totals.outcomes)]

namespace Report

/-- A report as a JSON value. -/
def toValue (report : Report) : Json.Value :=
  .object
    [("root", .text report.root.text),
     ("files", .list (report.files.map FileReport.toValue)),
     ("summary", report.summary.toValue),
     ("skippedPaths", .number report.skipped),
     ("totals", report.totals.toValue)]

/-- A report as JSON text, with a line end after it. -/
def json (report : Report) : String := report.toValue.render ++ "\n"

/-- A report in a format. -/
def render (format : Format) (colour : Bool) (report : Report) : String :=
  match format with
  | .text => report.listing colour
  | .json => report.json

end Report

end FeatureDigest
