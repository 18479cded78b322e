import FeatureDigest.Proofs.FileTree.Plain
import FeatureDigest.Proofs.Text.Unstyled
import FeatureDigest.Report.Json

/-!
# Colours of a listing

A listing with colours is the listing without, with sequences in it: taking the sequences out
gives it back, blanks that fill columns and all (`Report.Plain.shades_listingWith`).  This holds of
a report of whatever texts without escape characters, and of whatever counts in its last line.
-/

set_option autoImplicit false

namespace FeatureDigest

open Gherkin (Kind Digest)
open Text (Shades)

/-! ## Lines -/

theorem unlines_cons (line : String) (lines : List String) :
    unlines (line :: lines) = line ++ "\n" ++ unlines lines := by
  rw [unlines, List.map_cons, String.join_cons]
  rfl

theorem plain_unlines {lines : List String} (h : ∀ line ∈ lines, Text.Plain line) :
    Text.Plain (unlines lines) := by
  induction lines with
  | nil => exact Text.plain_empty
  | cons line lines ih =>
    obtain ⟨hline, hlines⟩ := List.forall_mem_cons.1 h
    rw [unlines_cons]
    exact (hline.append (by decide)).append (ih hlines)

theorem shades_unlines_nil : Shades (unlines []) (unlines []) :=
  Shades.of_plain Text.plain_empty

theorem shades_unlines_cons {line first : String} {lines others : List String}
    (hline : Shades line first) (hlines : Shades (unlines lines) (unlines others)) :
    Shades (unlines (line :: lines)) (unlines (first :: others)) := by
  rw [unlines_cons, unlines_cons]
  exact (hline.append (Shades.of_plain (by decide))).append hlines

theorem shades_unlines_append {lines others more further : List String}
    (hlines : Shades (unlines lines) (unlines others))
    (hmore : Shades (unlines more) (unlines further)) :
    Shades (unlines (lines ++ more)) (unlines (others ++ further)) := by
  rw [unlines_append, unlines_append]
  exact hlines.append hmore

variable {α : Type} {items : List α}

theorem shades_unlines_map {styled plain : α → String}
    (h : ∀ item ∈ items, Shades (styled item) (plain item)) :
    Shades (unlines (items.map styled)) (unlines (items.map plain)) := by
  induction items with
  | nil => exact shades_unlines_nil
  | cons item items ih =>
    obtain ⟨hitem, hitems⟩ := List.forall_mem_cons.1 h
    exact shades_unlines_cons hitem (ih hitems)

theorem shades_unlines_flatMap {styled plain : α → List String}
    (h : ∀ item ∈ items, Shades (unlines (styled item)) (unlines (plain item))) :
    Shades (unlines (items.flatMap styled)) (unlines (items.flatMap plain)) := by
  induction items with
  | nil => exact shades_unlines_nil
  | cons item items ih =>
    obtain ⟨hitem, hitems⟩ := List.forall_mem_cons.1 h
    rw [List.flatMap_cons, List.flatMap_cons]
    exact shades_unlines_append hitem (ih hitems)

/-! ## Listings -/

theorem plain_successMark : Text.Plain successMark := by decide

theorem shades_warningWord :
    Shades (Text.painted true .boldYellow "warning:") (Text.painted false .boldYellow "warning:") :=
  Shades.painted .boldYellow (by decide)

theorem plain_counted (count : Nat) {one many : String} (hone : Text.Plain one)
    (hmany : Text.Plain many) : Text.Plain (counted count one many) :=
  ((Text.plain_nat count).append Text.plain_blank).append (hone.ite hmany)

namespace Report

/-- Neither a path nor an item of the report has an escape character. -/
structure Plain (report : Report) : Prop where
  root : Text.Plain report.root.text
  path : ∀ file ∈ report.files, Text.Plain file.path.text
  item : ∀ file ∈ report.files, ∀ kind, ∀ item ∈ file.digest.bucket kind, Text.Plain item

/-- The listing of a report with other counts than its own. -/
def listingWith (totals : Totals) (colour : Bool) (report : Report) : String :=
  unlines
    (if report.files.isEmpty then [emptyLine colour report.root]
    else report.files.flatMap (report.fileLines colour) ++ [totalsLine colour totals])

/-- A listing shows the counts of its report. -/
theorem listing_eq (colour : Bool) (report : Report) :
    report.listing colour = report.listingWith report.totals colour := rfl

theorem shades_itemLines {digest : Digest} {kind : Kind}
    (h : ∀ item ∈ digest.bucket kind, Text.Plain item) :
    Shades (unlines (itemLines true digest kind)) (unlines (itemLines false digest kind)) := by
  have hlabel : Text.Plain (padded labelWidth kind.label) := by
    rcases kind with _ | _ | (_ | _ | _) <;> decide
  apply shades_unlines_map
  intro item hitem
  exact ((Shades.of_plain (by decide)).append (Shades.painted .cyan hlabel)).append
    (Shades.of_plain (h item hitem))

theorem Plain.shades_fileLines {report : Report} (h : report.Plain) {file : FileReport}
    (hfile : file ∈ report.files) :
    Shades (unlines (report.fileLines true file)) (unlines (report.fileLines false file)) := by
  have hempty : Shades (unlines [""]) (unlines [""]) := Shades.of_plain (by decide)
  have hpath : Text.Plain (report.displayPath file).text :=
    Path.plain_relativeTo (h.path file hfile) report.root
  apply shades_unlines_cons (Shades.painted .bold hpath)
  apply shades_unlines_append _ hempty
  exact shades_unlines_flatMap fun kind _ => shades_itemLines (h.item file hfile kind)

theorem shades_totalsLine (totals : Totals) :
    Shades (totalsLine true totals) (totalsLine false totals) := by
  have hcounts : ∀ count ∈
      [counted totals.features "feature" "features",
       counted totals.scenarios "scenario" "scenarios",
       counted totals.states "state" "states",
       counted totals.actions "action" "actions",
       counted totals.outcomes "outcome" "outcomes"], Text.Plain count := by
    simp only [List.forall_mem_cons]
    refine ⟨?_, ?_, ?_, ?_, ?_, nofun⟩ <;> exact plain_counted _ (by decide) (by decide)
  have hfiles : Text.Plain (counted totals.files "feature file" "feature files") :=
    plain_counted totals.files (by decide) (by decide)
  have hverb : Text.Plain "Analyzed " := by decide
  have hcomma : Text.Plain ", " := by decide
  have hline := ((hverb.append hfiles).append Text.plain_colon).append
    (Text.plain_intercalate hcomma hcounts)
  exact ((Shades.painted .green plain_successMark).append (Shades.of_plain Text.plain_blank)).append
    (Shades.painted .green hline)

theorem Plain.shades_emptyLine {report : Report} (h : report.Plain) :
    Shades (emptyLine true report.root) (emptyLine false report.root) := by
  have hline : Text.Plain ("No feature files found in " ++ report.root.text) :=
    Text.Plain.append (by decide) h.root
  exact (shades_warningWord.append (Shades.of_plain Text.plain_blank)).append
    (Shades.painted .yellow hline)

/-- Colours put nothing but sequences into a listing. -/
theorem Plain.shades_listingWith {report : Report} (h : report.Plain) (totals : Totals) :
    Shades (report.listingWith totals true) (report.listingWith totals false) := by
  unfold listingWith
  split
  · exact shades_unlines_cons h.shades_emptyLine shades_unlines_nil
  · apply shades_unlines_append
    · exact shades_unlines_flatMap fun file hfile => h.shades_fileLines hfile
    · exact shades_unlines_cons (shades_totalsLine totals) shades_unlines_nil

end Report

end FeatureDigest
