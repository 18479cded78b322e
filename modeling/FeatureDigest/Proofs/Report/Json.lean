import FeatureDigest.Proofs.Json.Meaning
import FeatureDigest.Report.Json

/-!
# JSON reports read back

Every report is written as a JSON document with a line end after it, and its contents are
found in the value of this document, whatever characters its paths and lines are made of
(`json_lossless`).
-/

set_option autoImplicit false

namespace FeatureDigest

open Json (Datum decode Spells)

/-! ## Contents of a report -/

/-- What a JSON report tells. -/
structure Report.Contents where
  root : Path
  files : List FileReport
  summary : Gherkin.Digest
  skipped : Nat
  totals : Totals
  deriving DecidableEq, Repr

/-- The contents of a report. -/
def Report.contents (report : Report) : Report.Contents :=
  ⟨report.root, report.files, report.summary, report.skipped, report.totals⟩

/-- The digest that a JSON value stands for. -/
def Gherkin.Digest.ofDatum? (datum : Datum) : Option Gherkin.Digest := do
  let lines ← (← datum.member? "files").items? Datum.text?
  let features ← (← datum.member? "features").items? Datum.text?
  let scenarios ← (← datum.member? "scenarios").items? Datum.text?
  let states ← (← datum.member? "states").items? Datum.text?
  let actions ← (← datum.member? "actions").items? Datum.text?
  let outcomes ← (← datum.member? "outcomes").items? Datum.text?
  return { lines, features, scenarios, states, actions, outcomes }

/-- The digest of a file that a JSON value stands for. -/
def FileReport.ofDatum? (datum : Datum) : Option FileReport := do
  let path ← (← datum.member? "path").text?
  let digest ← Gherkin.Digest.ofDatum? (← datum.member? "gherkins")
  return ⟨⟨path⟩, digest⟩

/-- The counts that a JSON value stands for. -/
def Totals.ofDatum? (datum : Datum) : Option Totals := do
  let files ← (← datum.member? "files").count?
  let lines ← (← datum.member? "lines").count?
  let classified ← (← datum.member? "classified").count?
  let features ← (← datum.member? "features").count?
  let scenarios ← (← datum.member? "scenarios").count?
  let states ← (← datum.member? "states").count?
  let actions ← (← datum.member? "actions").count?
  let outcomes ← (← datum.member? "outcomes").count?
  return { files, lines, classified, features, scenarios, states, actions, outcomes }

namespace Report

/-- The contents that a JSON value stands for. -/
def Contents.ofDatum? (datum : Datum) : Option Contents := do
  let root ← (← datum.member? "root").text?
  let files ← (← datum.member? "files").items? FileReport.ofDatum?
  let summary ← Gherkin.Digest.ofDatum? (← datum.member? "summary")
  let skipped ← (← datum.member? "skippedPaths").count?
  let totals ← Totals.ofDatum? (← datum.member? "totals")
  return { root := ⟨root⟩, files, summary, skipped, totals }

/-- The contents of a report that is read from JSON. -/
def Contents.ofJson? (json : String) : Option Contents :=
  (decode json.toList).bind Contents.ofDatum?

end Report

/-! ## Reading back -/

theorem Gherkin.Digest.ofDatum?_toValue (digest : Gherkin.Digest) :
    ofDatum? digest.toValue.datum = some digest := by
  simp only [ofDatum?, toValue, Json.Value.member?_datum]
  simp [List.lookup_cons, Json.Value.texts_datum]

theorem FileReport.ofDatum?_toValue (file : FileReport) :
    ofDatum? file.toValue.datum = some file := by
  simp only [ofDatum?, toValue, Json.Value.member?_datum]
  simp [List.lookup_cons, Json.Value.text?_datum, Gherkin.Digest.ofDatum?_toValue]

theorem Totals.ofDatum?_toValue (totals : Totals) :
    ofDatum? totals.toValue.datum = some totals := by
  simp only [ofDatum?, toValue, Json.Value.member?_datum]
  simp [List.lookup_cons, Json.Value.count?_datum]

namespace Report

theorem Contents.ofDatum?_toValue (report : Report) :
    ofDatum? report.toValue.datum = some report.contents := by
  simp only [ofDatum?, toValue, Json.Value.member?_datum]
  simp [List.lookup_cons, Json.Value.text?_datum, Json.Value.count?_datum,
    Json.Value.items?_datum FileReport.ofDatum?_toValue, Gherkin.Digest.ofDatum?_toValue,
    Totals.ofDatum?_toValue, contents]

theorem contents_injective {first second : Report} (h : first.contents = second.contents) :
    first = second := by
  cases first
  cases second
  cases h
  rfl

theorem toList_json (report : Report) :
    report.json.toList = Json.Value.write 0 report.toValue ++ ['\n'] := by
  rw [json, Json.Value.render, String.toList_append, String.toList_ofList]
  rfl

/-- The document of a report ends with its closing brace. -/
theorem getLast?_write (report : Report) :
    (Json.Value.write 0 report.toValue).getLast? = some '\x7d' := by
  rw [toValue, Json.Value.write, ← List.cons_append, List.getLast?_concat]

theorem Contents.ofJson?_json (report : Report) : ofJson? report.json = some report.contents := by
  have hlineEnd : Json.IsGap ['\n'] := Json.isGap_lineBreak 0
  have hdecode := Json.decode_of_spells Json.isGap_nil
    (Json.Value.spells_write 0 report.toValue) hlineEnd
  rw [ofJson?, toList_json, ← List.nil_append (_ ++ _), hdecode, Option.bind_some,
    ofDatum?_toValue]

/-- A report is written as one JSON document and one line end.  The decoder finds in it the
root, the path and the digest of every file in order, the summary, the count of skipped paths
and the totals, all as they are in the report.  So no two reports are written alike. -/
theorem json_lossless (report : Report) :
    (∃ document datum, report.json.toList = document ++ ['\n'] ∧ Spells document datum ∧
        document.getLast? ≠ some '\n') ∧
      Contents.ofJson? report.json = some report.contents ∧
      ∀ other : Report, other.json = report.json → other = report := by
  refine ⟨⟨Json.Value.write 0 report.toValue, report.toValue.datum, toList_json report,
    Json.Value.spells_write 0 report.toValue, ?_⟩, Contents.ofJson?_json report, ?_⟩
  · rw [getLast?_write]
    decide
  · intro other heq
    have hcontents := Contents.ofJson?_json other
    rw [heq, Contents.ofJson?_json report] at hcontents
    exact contents_injective (Option.some.inj hcontents).symm

end Report

end FeatureDigest
