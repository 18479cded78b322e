import FeatureDigest.Report.Basic
import FeatureDigest.Text.Styled

/-!
# Listings

A report as a listing to be read: for every file its path, one line for each item
with a label in front, and an empty line; then one line with the counts.
-/

set_option autoImplicit false

namespace FeatureDigest

open Gherkin (Kind Digest)
open Text (Style painted)

/-- The mark of success. -/
def successMark : String := "✓"

/-- Lines as a text, each with its line end. -/
def unlines (lines : List String) : String :=
  String.join (lines.map fun line => line ++ "\n")

theorem unlines_append (first second : List String) :
    unlines (first ++ second) = unlines first ++ unlines second := by
  unfold unlines
  rw [List.map_append, String.join_append]

/-- A text with blanks after it up to a width. -/
def padded (width : Nat) (text : String) : String :=
  text ++ String.ofList (List.replicate (width - text.length) ' ')

/-- The label of a kind of item. -/
def Gherkin.Kind.label : Kind → String
  | .feature => "feature:"
  | .scenario => "scenario:"
  | .step .state => "given:"
  | .step .action => "when:"
  | .step .outcome => "then:"

/-- The width of the column of labels. -/
def labelWidth : Nat := 10

/-- A count with the noun it counts. -/
def counted (count : Nat) (one many : String) : String :=
  toString count ++ " " ++ (if count = 1 then one else many)

namespace Report

/-- The lines for the items of one kind. -/
def itemLines (colour : Bool) (digest : Digest) (kind : Kind) : List String :=
  (digest.bucket kind).map fun item =>
    "  " ++ painted colour .cyan (padded labelWidth kind.label) ++ item

/-- The lines for one file. -/
def fileLines (colour : Bool) (report : Report) (file : FileReport) : List String :=
  painted colour .bold (report.displayPath file).text
    :: (Kind.all.flatMap (itemLines colour file.digest) ++ [""])

/-- The line with the counts. -/
def totalsLine (colour : Bool) (totals : Totals) : String :=
  let counts :=
    [counted totals.features "feature" "features",
     counted totals.scenarios "scenario" "scenarios",
     counted totals.states "state" "states",
     counted totals.actions "action" "actions",
     counted totals.outcomes "outcome" "outcomes"]
  painted colour .green successMark ++ " "
    ++ painted colour .green
      ("Analyzed " ++ counted totals.files "feature file" "feature files" ++ ": "
        ++ ", ".intercalate counts)

/-- The line of a report without files. -/
def emptyLine (colour : Bool) (root : Path) : String :=
  painted colour .boldYellow "warning:" ++ " "
    ++ painted colour .yellow ("No feature files found in " ++ root.text)

/-- The lines of a report. -/
def listingLines (colour : Bool) (report : Report) : List String :=
  if report.files.isEmpty then [emptyLine colour report.root]
  else report.files.flatMap (report.fileLines colour) ++ [totalsLine colour report.totals]

/-- A report as a listing. -/
def listing (colour : Bool) (report : Report) : String := unlines (report.listingLines colour)

end Report

end FeatureDigest
