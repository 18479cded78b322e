import Mathlib.Algebra.GroupWithZero.Nat
import FeatureDigest.Report.Listing

/-!
# Reading a listing back

A listing without colours says everything about the items of a report: `ListedFile.read`
gets them back from its lines.  An item may look like any other line of the format, but
not where it stands: the first line of a file is its path whatever it looks like, the
lines after it carry a label, an empty line ends the file, and the last line of all
stands where no file can start.

The numbers of the last line are read without knowing the words between them.
-/

set_option autoImplicit false

namespace FeatureDigest

open Gherkin (Kind Digest)
open Text (painted)

/-! ## Lines -/

/-- The lines of a text that end with a line feed, the characters of the line under way
in reverse. -/
def endedLines (reversed : List Char) : List Char → List (List Char)
  | [] => []
  | c :: rest =>
    if c = '\n' then reversed.reverse :: endedLines [] rest
    else endedLines (c :: reversed) rest

theorem endedLines_append {line : List Char} (h : '\n' ∉ line) (reversed rest : List Char) :
    endedLines reversed (line ++ '\n' :: rest)
      = (reversed.reverse ++ line) :: endedLines [] rest := by
  induction line generalizing reversed with
  | nil => simp [endedLines]
  | cons c line ih =>
    rw [List.mem_cons, not_or] at h
    have hc : c ≠ '\n' := fun e => h.1 e.symm
    rw [List.cons_append, endedLines, if_neg hc, ih h.2, List.reverse_cons,
      List.append_assoc, List.singleton_append]

/-- Lines are found as they were put down. -/
theorem endedLines_unlines {lines : List String} (h : ∀ line ∈ lines, '\n' ∉ line.toList) :
    endedLines [] (unlines lines).toList = lines.map String.toList := by
  have htext (lines : List String) :
      (unlines lines).toList = lines.flatMap fun line => line.toList ++ ['\n'] := by
    rw [unlines, String.toList_join, List.flatMap_map]
    simp
  rw [htext]
  induction lines with
  | nil => rfl
  | cons line lines ih =>
    have hline := h line List.mem_cons_self
    have hrest := ih fun other hmem => h other (List.mem_cons_of_mem line hmem)
    rw [List.flatMap_cons, List.append_assoc, List.singleton_append,
      endedLines_append hline, hrest]
    rfl

/-! ## Files -/

/-- What a listing says about one file. -/
structure ListedFile where
  /-- The path that the file is listed under. -/
  path : String
  features : List String
  scenarios : List String
  states : List String
  actions : List String
  outcomes : List String
  deriving DecidableEq, Repr, Inhabited

/-- What a listing is to say about a file of a report. -/
def Report.listed (report : Report) (file : FileReport) : ListedFile where
  path := (report.displayPath file).text
  features := file.digest.features
  scenarios := file.digest.scenarios
  states := file.digest.states
  actions := file.digest.actions
  outcomes := file.digest.outcomes

namespace ListedFile

/-- A file with more items of a kind. -/
def add (file : ListedFile) (items : List String) : Kind → ListedFile
  | .feature => { file with features := file.features ++ items }
  | .scenario => { file with scenarios := file.scenarios ++ items }
  | .step .state => { file with states := file.states ++ items }
  | .step .action => { file with actions := file.actions ++ items }
  | .step .outcome => { file with outcomes := file.outcomes ++ items }

/-- What stands before an item of a kind. -/
def marker : Kind → String
  | .feature => "  feature:  "
  | .scenario => "  scenario: "
  | .step .state => "  given:    "
  | .step .action => "  when:     "
  | .step .outcome => "  then:     "

/-- The item that a line shows, with its kind. -/
def item? (line : List Char) : Option (Kind × String) :=
  Kind.all.findSome? fun kind =>
    (Gherkin.afterKeyword? (marker kind).toList line).map fun text =>
      (kind, String.ofList text)

/-- The files that lines list, the file under way first if there is one.  A line that
nothing follows where a file would start is the last line of a listing. -/
def read : (file : Option ListedFile) → List (List Char) → Option (List ListedFile)
  | _, [] => none
  | none, [_] => some []
  | none, path :: line :: rest =>
    read (some ⟨String.ofList path, [], [], [], [], []⟩) (line :: rest)
  | some file, [] :: rest => (read none rest).map (file :: ·)
  | some file, (c :: line) :: rest =>
    match item? (c :: line) with
    | none => none
    | some (kind, text) => read (some (file.add [text] kind)) rest

/-- The files that a listing shows. -/
def ofListing (listing : String) : Option (List ListedFile) :=
  read none (endedLines [] listing.toList)

/-- Labels have different lengths and are made one width. -/
theorem marker_eq (kind : Kind) : "  " ++ padded labelWidth kind.label = marker kind := by
  rcases kind with _ | _ | (_ | _ | _) <;> decide

/-- A marker shows the kind of its item, whatever the item is. -/
theorem item?_marker (kind : Kind) (item : List Char) :
    item? ((marker kind).toList ++ item) = some (kind, String.ofList item) := by
  rcases kind with _ | _ | (_ | _ | _) <;>
    simp [item?, Kind.all, marker, Gherkin.afterKeyword?]

theorem add_add (file : ListedFile) (first second : List String) (kind : Kind) :
    (file.add first kind).add second kind = file.add (first ++ second) kind := by
  rcases kind with _ | _ | (_ | _ | _) <;> simp [add]

theorem add_nil (file : ListedFile) (kind : Kind) : file.add [] kind = file := by
  rcases kind with _ | _ | (_ | _ | _) <;> simp [add]

theorem read_item (file : ListedFile) (kind : Kind) (item : List Char)
    (rest : List (List Char)) :
    read (some file) (((marker kind).toList ++ item) :: rest)
      = read (some (file.add [String.ofList item] kind)) rest := by
  have hitem := item?_marker kind item
  obtain ⟨c, line, hline⟩ : ∃ c line, (marker kind).toList ++ item = c :: line := by
    rcases kind with _ | _ | (_ | _ | _) <;> simp [marker]
  rw [hline] at hitem ⊢
  simp only [read, hitem]

/-- The lines for the items of a kind add the items to the file under way. -/
theorem read_itemLines (file : ListedFile) (digest : Digest) (kind : Kind)
    (rest : List (List Char)) :
    read (some file) ((Report.itemLines false digest kind).map String.toList ++ rest)
      = read (some (file.add (digest.bucket kind) kind)) rest := by
  unfold Report.itemLines
  generalize digest.bucket kind = items
  induction items generalizing file with
  | nil => rw [add_nil]; rfl
  | cons item items ih =>
    have hline : ("  " ++ painted false .cyan (padded labelWidth kind.label) ++ item).toList
        = (marker kind).toList ++ item.toList := by
      rw [Text.painted_false, marker_eq, String.toList_append]
    rw [List.map_cons, List.map_cons, hline, List.cons_append, read_item, ih, add_add,
      String.ofList_toList]
    rfl

/-- The lines for a file show the file and end where the next one may start. -/
theorem read_fileLines (report : Report) (file : FileReport) {rest : List (List Char)}
    (h : rest ≠ []) :
    read none ((report.fileLines false file).map String.toList ++ rest)
      = (read none rest).map (report.listed file :: ·) := by
  obtain ⟨line, rest, rfl⟩ := List.exists_cons_of_ne_nil h
  have hfull : ((((((⟨(report.displayPath file).text, [], [], [], [], []⟩ : ListedFile).add
      (file.digest.bucket .feature) .feature).add
      (file.digest.bucket .scenario) .scenario).add
      (file.digest.bucket (.step .state)) (.step .state)).add
      (file.digest.bucket (.step .action)) (.step .action)).add
      (file.digest.bucket (.step .outcome)) (.step .outcome)) = report.listed file := by
    simp [add, Report.listed, Digest.bucket]
  have hpath (rest : List (List Char)) (hne : rest ≠ []) (path : List Char) :
      read none (path :: rest)
        = read (some ⟨String.ofList path, [], [], [], [], []⟩) rest := by
    obtain ⟨next, more, rfl⟩ := List.exists_cons_of_ne_nil hne
    rw [read]
  unfold Report.fileLines
  rw [List.map_cons, List.cons_append, hpath _ (by simp), Text.painted_false,
    String.ofList_toList, List.map_append, List.append_assoc]
  simp only [Kind.all, List.flatMap_cons, List.flatMap_nil, List.append_nil,
    List.map_append, List.append_assoc, read_itemLines]
  rw [hfull]
  simp [read]

theorem read_listingLines (report : Report) :
    read none ((report.listingLines false).map String.toList)
      = some (report.files.map report.listed) := by
  have hfiles (files : List FileReport) (last : List Char) :
      read none ((files.flatMap (report.fileLines false)).map String.toList ++ [last])
        = some (files.map report.listed) := by
    induction files with
    | nil => rfl
    | cons file files ih =>
      rw [List.flatMap_cons, List.map_append, List.append_assoc,
        read_fileLines report file (by simp), ih]
      rfl
  unfold Report.listingLines
  cases hempty : report.files.isEmpty with
  | true =>
    rw [List.isEmpty_iff] at hempty
    rw [hempty]
    rfl
  | false =>
    rw [if_neg (by simp), List.map_append]
    exact hfiles report.files _

end ListedFile

/-! ## Counts -/

/-- The numbers in a text, each as far as its digits go, with the number under way. -/
def numbersFrom : (current : Option Nat) → List Char → List Nat
  | current, [] => current.toList
  | current, c :: rest =>
    if c.isDigit then numbersFrom (some (10 * current.getD 0 + (c.toNat - '0'.toNat))) rest
    else current.toList ++ numbersFrom none rest

/-- The numbers in the last line of a listing. -/
def listedCounts (listing : String) : Option (List Nat) :=
  (endedLines [] listing.toList).getLast?.map (numbersFrom none)

theorem numbersFrom_words {words : List Char} (h : ∀ c ∈ words, c.isDigit = false)
    (rest : List Char) : numbersFrom none (words ++ rest) = numbersFrom none rest := by
  induction words with
  | nil => rfl
  | cons c words ih =>
    have hc := h c List.mem_cons_self
    rw [List.cons_append, numbersFrom, if_neg (by simp [hc]),
      ih fun other hmem => h other (List.mem_cons_of_mem c hmem)]
    rfl

theorem numbersFrom_digits {digits : List Char} (h : ∀ c ∈ digits, c.isDigit = true)
    (number : Nat) (rest : List Char) :
    numbersFrom (some number) (digits ++ rest)
      = numbersFrom (some (Nat.ofDigitChars 10 digits number)) rest := by
  induction digits generalizing number with
  | nil => rfl
  | cons c digits ih =>
    have hc := h c List.mem_cons_self
    rw [List.cons_append, numbersFrom, if_pos hc,
      ih fun other hmem => h other (List.mem_cons_of_mem c hmem), Nat.ofDigitChars_cons]
    rfl

/-- A number that was written down is read. -/
theorem numbersFrom_toDigits (number : Nat) {c : Char} (h : c.isDigit = false)
    (rest : List Char) :
    numbersFrom none (Nat.toDigits 10 number ++ c :: rest)
      = number :: numbersFrom none rest := by
  have hdigit : ∀ d ∈ Nat.toDigits 10 number, d.isDigit = true := fun d hmem =>
    Nat.isDigit_of_mem_toDigits (by omega) (by omega) hmem
  have hvalue : Nat.ofDigitChars 10 (Nat.toDigits 10 number) 0 = number :=
    Nat.ofDigitChars_ten_toDigits
  obtain ⟨d, digits, hd⟩ := List.exists_cons_of_ne_nil
    (Nat.toDigits_ne_nil : Nat.toDigits 10 number ≠ [])
  rw [hd] at hdigit hvalue ⊢
  have hfirst := hdigit d List.mem_cons_self
  have hrest := fun other hmem => hdigit other (List.mem_cons_of_mem d hmem)
  rw [Nat.ofDigitChars_cons] at hvalue
  rw [List.cons_append, numbersFrom, if_pos hfirst, numbersFrom_digits hrest,
    Option.getD_none, hvalue, numbersFrom, if_neg (by simp [h])]
  rfl

theorem toList_counted (count : Nat) (one many : String) :
    (counted count one many).toList
      = Nat.toDigits 10 count ++ ' ' :: (if count = 1 then one else many).toList := by
  rw [counted, String.toList_append, String.toList_append, Nat.toString_eq_repr,
    Nat.toList_repr]
  simp

/-- A count is read, and the noun that it counts is not. -/
theorem numbersFrom_counted (count : Nat) {one many : String}
    (hone : ∀ c ∈ one.toList, c.isDigit = false)
    (hmany : ∀ c ∈ many.toList, c.isDigit = false) (rest : List Char) :
    numbersFrom none ((counted count one many).toList ++ rest)
      = count :: numbersFrom none rest := by
  have hnoun : ∀ c ∈ (if count = 1 then one else many).toList, c.isDigit = false := by
    split
    · exact hone
    · exact hmany
  rw [toList_counted, List.append_assoc, List.cons_append, numbersFrom_toDigits count (by decide),
    numbersFrom_words hnoun]

namespace Report

/-- The last line of a listing, number by number. -/
theorem toList_totalsLine (totals : Totals) :
    (totalsLine false totals).toList
      = "✓ Analyzed ".toList
        ++ ((counted totals.files "feature file" "feature files").toList
        ++ (": ".toList ++ ((counted totals.features "feature" "features").toList
        ++ (", ".toList ++ ((counted totals.scenarios "scenario" "scenarios").toList
        ++ (", ".toList ++ ((counted totals.states "state" "states").toList
        ++ (", ".toList ++ ((counted totals.actions "action" "actions").toList
        ++ (", ".toList ++ ((counted totals.outcomes "outcome" "outcomes").toList
        ++ []))))))))))) := by
  simp [totalsLine, successMark]

/-- The last line of a listing counts the files and the items of each kind. -/
theorem numbersFrom_totalsLine (totals : Totals) :
    numbersFrom none (totalsLine false totals).toList
      = [totals.files, totals.features, totals.scenarios, totals.states, totals.actions,
          totals.outcomes] := by
  have hmark : ∀ c ∈ "✓ Analyzed ".toList, c.isDigit = false := by simp
  have hcolon : ∀ c ∈ ": ".toList, c.isDigit = false := by simp
  have hcomma : ∀ c ∈ ", ".toList, c.isDigit = false := by simp
  rw [toList_totalsLine, numbersFrom_words hmark,
    numbersFrom_counted _ (by simp) (by simp), numbersFrom_words hcolon,
    numbersFrom_counted _ (by simp) (by simp), numbersFrom_words hcomma,
    numbersFrom_counted _ (by simp) (by simp), numbersFrom_words hcomma,
    numbersFrom_counted _ (by simp) (by simp), numbersFrom_words hcomma,
    numbersFrom_counted _ (by simp) (by simp), numbersFrom_words hcomma,
    numbersFrom_counted _ (by simp) (by simp)]
  rfl

/-- Only digits are written for a number. -/
theorem not_mem_decimal {c : Char} (h : c.isDigit = false) (number : Nat) :
    c ∉ Nat.toDigits 10 number := by
  intro hmem
  have hdigit := Nat.isDigit_of_mem_toDigits (by omega) (by omega) hmem
  rw [h] at hdigit
  cases hdigit

theorem newline_not_mem_counted (count : Nat) {one many : String}
    (hone : '\n' ∉ one.toList) (hmany : '\n' ∉ many.toList) :
    '\n' ∉ (counted count one many).toList := by
  have hdigits : '\n' ∉ Nat.toDigits 10 count := not_mem_decimal (by decide) count
  rw [toList_counted]
  split <;> simp [hdigits, hone, hmany]

theorem newline_not_mem_totalsLine (totals : Totals) :
    '\n' ∉ (totalsLine false totals).toList := by
  rw [toList_totalsLine]
  simp only [List.mem_append, not_or]
  refine ⟨by decide, ?_, by decide, ?_, by decide, ?_, by decide, ?_, by decide, ?_,
    by decide, ?_, by decide⟩ <;>
    exact newline_not_mem_counted _ (by decide) (by decide)

/-- The summary has as many texts of a kind as the files together. -/
theorem length_bucket_summary (report : Report) (kind : Kind) :
    (report.summary.bucket kind).length
      = (report.files.map fun file => (file.digest.bucket kind).length).sum := by
  rw [summary, Gherkin.Digest.bucket_concat, List.flatMap_map, List.length_flatMap]

/-- Neither the root nor a listed path or item holds a line feed. -/
structure Unbroken (report : Report) : Prop where
  root : '\n' ∉ report.root.text.toList
  path : ∀ file ∈ report.files, '\n' ∉ (report.displayPath file).text.toList
  item : ∀ file ∈ report.files, ∀ kind, ∀ item ∈ file.digest.bucket kind,
    '\n' ∉ item.toList

/-- No line of an unbroken report's listing holds a line feed. -/
theorem newline_not_mem_listingLines {report : Report} (h : report.Unbroken) :
    ∀ line ∈ report.listingLines false, '\n' ∉ line.toList := by
  intro line hmem
  unfold listingLines at hmem
  cases hempty : report.files.isEmpty with
  | true =>
    rw [hempty, if_pos rfl, List.mem_singleton] at hmem
    rw [hmem]
    simp [emptyLine, h.root]
  | false =>
    rw [hempty, if_neg (by simp), List.mem_append, List.mem_flatMap,
      List.mem_singleton] at hmem
    rcases hmem with ⟨file, hfile, hline⟩ | rfl
    · unfold fileLines at hline
      rw [List.mem_cons, List.mem_append, List.mem_flatMap, List.mem_singleton] at hline
      rcases hline with rfl | ⟨kind, _, hitem⟩ | rfl
      · exact h.path file hfile
      · unfold itemLines at hitem
        obtain ⟨item, hbucket, rfl⟩ := List.mem_map.1 hitem
        have hmarker : '\n' ∉ (ListedFile.marker kind).toList := by
          rcases kind with _ | _ | (_ | _ | _) <;> decide
        rw [Text.painted_false, ListedFile.marker_eq, String.toList_append,
          List.mem_append, not_or]
        exact ⟨hmarker, h.item file hfile kind item hbucket⟩
      · decide
    · exact newline_not_mem_totalsLine report.totals

/-- The listing of an unbroken report is its lines. -/
theorem endedLines_listing {report : Report} (h : report.Unbroken) :
    endedLines [] (report.listing false).toList
      = (report.listingLines false).map String.toList :=
  endedLines_unlines (newline_not_mem_listingLines h)

/-- The numbers that end the listing of a report with files. -/
theorem listedCounts_listing {report : Report} (h : report.Unbroken)
    (hfiles : report.files ≠ []) :
    listedCounts (report.listing false)
      = some [report.totals.files, report.totals.features, report.totals.scenarios,
          report.totals.states, report.totals.actions, report.totals.outcomes] := by
  have hempty : report.files.isEmpty = false := by simpa using hfiles
  unfold listedCounts
  rw [endedLines_listing h, listingLines, hempty, if_neg (by simp), List.map_append,
    List.map_singleton, List.getLast?_append, List.getLast?_singleton, Option.some_or,
    Option.map_some, numbersFrom_totalsLine]

/-- One reader gets the listed path and the items of every file back from the listing of
any report without line feeds, and the counts in the last line are those of the files
and items that were read. -/
theorem ofListing_listing (root : Path) (files : List FeatureFile) (skipped : Nat)
    (h : (ofFiles root files skipped).Unbroken) :
    let report := ofFiles root files skipped
    let listed := report.files.map report.listed
    ListedFile.ofListing (report.listing false) = some listed ∧
      (listed ≠ [] →
        listedCounts (report.listing false) = some
          [listed.length,
           (listed.map fun file => file.features.length).sum,
           (listed.map fun file => file.scenarios.length).sum,
           (listed.map fun file => file.states.length).sum,
           (listed.map fun file => file.actions.length).sum,
           (listed.map fun file => file.outcomes.length).sum]) := by
  intro report listed
  constructor
  · rw [ListedFile.ofListing, endedLines_listing h]
    exact ListedFile.read_listingLines report
  · intro hlisted
    have hfiles : report.files ≠ [] := by
      rintro hnil
      exact hlisted (by simp [listed, hnil])
    have hcount (kind : Kind) (field : ListedFile → List String)
        (hfield : ∀ file, field (report.listed file) = file.digest.bucket kind) :
        (report.summary.bucket kind).length
          = (listed.map fun file => (field file).length).sum := by
      rw [length_bucket_summary, List.map_map]
      simp only [Function.comp_def, hfield]
    rw [listedCounts_listing h hfiles,
      ← hcount .feature ListedFile.features fun _ => rfl,
      ← hcount .scenario ListedFile.scenarios fun _ => rfl,
      ← hcount (.step .state) ListedFile.states fun _ => rfl,
      ← hcount (.step .action) ListedFile.actions fun _ => rfl,
      ← hcount (.step .outcome) ListedFile.outcomes fun _ => rfl]
    have hlength : listed.length = report.files.length := List.length_map _
    rw [hlength]
    rfl

/-- The root of a scan of one file, whose listed path is empty. -/
def mimicryRoot : Path := ⟨"/a.feature"⟩

/-- A file with an empty item, an item that looks like another one with its label, and
an item that looks like the last line. -/
def mimicry : FeatureFile :=
  ⟨mimicryRoot,
    ["Feature: ", "Given   then:     b", "And ✓ Analyzed 2 feature files: 9 features"]⟩

theorem ofListing_listing_mimicry :
    (ofFiles mimicryRoot [mimicry] 0).Unbroken ∧
      ListedFile.ofListing ((ofFiles mimicryRoot [mimicry] 0).listing false)
        = some [⟨"", [""], [],
            ["  then:     b", "✓ Analyzed 2 feature files: 9 features"], [], []⟩] ∧
      listedCounts ((ofFiles mimicryRoot [mimicry] 0).listing false)
        = some [1, 1, 0, 2, 0, 0] := by
  have hunbroken : (ofFiles mimicryRoot [mimicry] 0).Unbroken := by
    refine ⟨by decide, by decide, ?_⟩
    intro file hfile kind
    have hsame : file = FileReport.ofFile mimicry := by simpa [ofFiles] using hfile
    subst hsame
    rcases kind with _ | _ | (_ | _ | _) <;> decide
  have h := ofListing_listing mimicryRoot [mimicry] 0 hunbroken
  have hlisted : (ofFiles mimicryRoot [mimicry] 0).files.map
      (ofFiles mimicryRoot [mimicry] 0).listed
        = [⟨"", [""], [], ["  then:     b", "✓ Analyzed 2 feature files: 9 features"],
            [], []⟩] := by
    decide
  simp only [hlisted] at h
  exact ⟨hunbroken, h.1, h.2 (by simp)⟩

end Report

end FeatureDigest
