import FeatureDigest.Proofs.Gherkin.LookBack
import FeatureDigest.Report.Basic

/-!
# Reports of files taken together

A report is put together from its files one by one: reporting two lists of files one
after the other is the same as putting their reports together.  The files of the report
and its summary are concatenated, the totals are added (`totals_append`), and nothing
of it depends on which other files are reported.

Totals are therefore a sum over the files, and they stay what they are when the files
come in another order (`totals_eq_of_perm`).
-/

set_option autoImplicit false

namespace FeatureDigest

open Gherkin (Digest)

/-! ## Digests in one -/

namespace Gherkin.Digest

@[simp] theorem empty_append (digest : Digest) : empty ++ digest = digest :=
  ext_bucket (List.nil_append _) fun kind => by
    rw [bucket_append, bucket_empty, List.nil_append]

@[simp] theorem append_empty (digest : Digest) : digest ++ empty = digest :=
  ext_bucket (List.append_nil _) fun kind => by
    rw [bucket_append, bucket_empty, List.append_nil]

theorem append_assoc (first second third : Digest) :
    first ++ second ++ third = first ++ (second ++ third) :=
  ext_bucket (List.append_assoc _ _ _) fun kind => by
    simp only [bucket_append, List.append_assoc]

instance : Std.Associative append := ⟨append_assoc⟩

theorem concat_cons (digest : Digest) (digests : List Digest) :
    concat (digest :: digests) = digest ++ concat digests := by
  have hstart : append empty digest = append digest empty :=
    (empty_append digest).trans (append_empty digest).symm
  calc digests.foldl append (append empty digest)
      = digests.foldl append (append digest empty) := by rw [hstart]
    _ = digest ++ concat digests := List.foldl_assoc

/-- Digests put together in two goes. -/
theorem concat_append (first second : List Digest) :
    concat (first ++ second) = concat first ++ concat second := by
  induction first with
  | nil => exact (empty_append _).symm
  | cons digest first ih => rw [List.cons_append, concat_cons, concat_cons, ih, append_assoc]

theorem lines_ofLines (lines : List String) :
    (ofLines lines).lines = lines.filter fun line => !Text.allBlank line.toList :=
  lines_entriesFrom none lines

/-- Every line that states an item is kept. -/
theorem classified_ofLines_le (lines : List String) :
    (ofLines lines).classified ≤ (ofLines lines).lines.length := by
  calc (ofLines lines).classified
      = ((entriesBy Kind.all lines).filter fun entry => entry.item?.isSome).length :=
        classified_ofEntries _
    _ ≤ (entriesBy Kind.all lines).length := List.length_filter_le _ _
    _ = (ofLines lines).lines.length := (List.length_map Entry.line).symm

end Gherkin.Digest

/-! ## Totals -/

namespace Totals

/-- The counts of a number of files with all their digests in one. -/
def count (files : Nat) (summary : Digest) : Totals where
  files := files
  lines := summary.lines.length
  classified := summary.classified
  features := summary.features.length
  scenarios := summary.scenarios.length
  states := summary.states.length
  actions := summary.actions.length
  outcomes := summary.outcomes.length

/-- The counts of two reports together. -/
def add (first second : Totals) : Totals where
  files := first.files + second.files
  lines := first.lines + second.lines
  classified := first.classified + second.classified
  features := first.features + second.features
  scenarios := first.scenarios + second.scenarios
  states := first.states + second.states
  actions := first.actions + second.actions
  outcomes := first.outcomes + second.outcomes

instance : Add Totals := ⟨add⟩

theorem count_append (left right : Nat) (first second : Digest) :
    count (left + right) (first ++ second) = count left first + count right second := by
  change count (left + right) (Digest.append first second)
    = add (count left first) (count right second)
  have hclassified : (Digest.append first second).classified
      = first.classified + second.classified := Digest.classified_append first second
  unfold count add
  rw [hclassified]
  simp only [Digest.append, List.length_append]

theorem add_left_comm (first second third : Totals) :
    first + (second + third) = second + (first + third) := by
  change add first (add second third) = add second (add first third)
  simp only [add, Nat.add_left_comm]

end Totals

/-! ## Reports in one -/

namespace Report

variable (root : Path) (first second : List FeatureFile) (skipped left right : Nat)

theorem files_append :
    (ofFiles root (first ++ second) skipped).files
      = (ofFiles root first left).files ++ (ofFiles root second right).files :=
  List.map_append

theorem summary_append :
    (ofFiles root (first ++ second) skipped).summary
      = (ofFiles root first left).summary ++ (ofFiles root second right).summary := by
  unfold summary
  rw [files_append root first second skipped left right, List.map_append,
    Gherkin.Digest.concat_append]

theorem totals_append :
    (ofFiles root (first ++ second) skipped).totals
      = (ofFiles root first left).totals + (ofFiles root second right).totals := by
  have hfiles := congrArg List.length (files_append root first second skipped left right)
  rw [List.length_append] at hfiles
  calc (ofFiles root (first ++ second) skipped).totals
      = Totals.count (ofFiles root (first ++ second) skipped).files.length
          (ofFiles root (first ++ second) skipped).summary := rfl
    _ = _ := by
      rw [hfiles, summary_append root first second skipped left right]
      exact Totals.count_append _ _ _ _

variable {first second skipped}

/-- The totals do not depend on the order of the files. -/
theorem totals_eq_of_perm (hperm : first.Perm second) :
    (ofFiles root first skipped).totals = (ofFiles root second skipped).totals := by
  have hcons (file : FeatureFile) (files : List FeatureFile) :
      (ofFiles root (file :: files) skipped).totals
        = (ofFiles root [file] skipped).totals + (ofFiles root files skipped).totals :=
    totals_append root [file] files skipped skipped skipped
  induction hperm with
  | nil => rfl
  | cons file _ ih => rw [hcons file, ih, ← hcons file]
  | swap one other files =>
    rw [hcons other, hcons one files, Totals.add_left_comm, ← hcons other files, ← hcons one]
  | trans _ _ ihfirst ihsecond => exact ihfirst.trans ihsecond

theorem lines_summary (files : List FeatureFile) :
    (ofFiles root files skipped).summary.lines
      = files.flatMap fun file => file.lines.filter fun line => !Text.allBlank line.toList := by
  induction files with
  | nil => rfl
  | cons file files ih =>
    have hone : (ofFiles root [file] skipped).summary = Digest.ofLines file.lines :=
      Digest.empty_append _
    rw [List.flatMap_cons, ← ih, ← Digest.lines_ofLines, ← hone, ← Digest.lines_append]
    exact congrArg Digest.lines (summary_append root [file] files skipped skipped skipped)

theorem classified_le_lines (files : List FeatureFile) :
    (ofFiles root files skipped).totals.classified
      ≤ (ofFiles root files skipped).totals.lines := by
  induction files with
  | nil => exact Nat.le_refl 0
  | cons file files ih =>
    have hone : (ofFiles root [file] skipped).totals
        = Totals.count 1 (Digest.ofLines file.lines) :=
      congrArg (Totals.count 1) (Digest.empty_append _)
    have hsum := totals_append root [file] files skipped skipped skipped
    rw [hone] at hsum
    calc (ofFiles root (file :: files) skipped).totals.classified
        = (Digest.ofLines file.lines).classified
            + (ofFiles root files skipped).totals.classified := congrArg Totals.classified hsum
      _ ≤ (Digest.ofLines file.lines).lines.length
            + (ofFiles root files skipped).totals.lines :=
        Nat.add_le_add (Digest.classified_ofLines_le file.lines) ih
      _ = (ofFiles root (file :: files) skipped).totals.lines :=
        (congrArg Totals.lines hsum).symm

/-- The entries at the given places, in the order of the places. -/
def arranged {α : Type} (places : List Nat) (entries : List α) : List α :=
  places.filterMap fun place => entries[place]?

theorem arranged_perm {α : Type} {places : List Nat} {entries : List α}
    (hplaces : places.Perm (List.range entries.length)) :
    (arranged places entries).Perm entries := by
  have hall : arranged (List.range entries.length) entries = entries := by
    clear hplaces
    induction entries with
    | nil => rfl
    | cons entry entries ih =>
      unfold arranged at ih ⊢
      have hhead : (entry :: entries)[0]? = some entry := rfl
      rw [List.length_cons, List.range_succ_eq_map, List.filterMap_cons_some hhead,
        List.filterMap_map]
      exact congrArg (entry :: ·) ih
  calc (arranged places entries).Perm (arranged (List.range entries.length) entries) :=
        hplaces.filterMap _
    _ = entries := hall

theorem arranged_map {α β : Type} (f : α → β) (places : List Nat) (entries : List α) :
    (arranged places entries).map f = arranged places (entries.map f) := by
  unfold arranged
  simp only [List.map_filterMap, List.getElem?_map]

/-- Reporting one list of files after the other puts the two reports together: the files
and the summary are concatenated and the totals added.  A file is digested by itself,
whatever is reported before and behind it; the totals count the lines that are not blank,
and those among them that state an item, kind by kind; and files that come in another
order are reported in that order, with the same totals. -/
theorem ofFiles_append (root : Path) (first second : List FeatureFile)
    (skipped left right : Nat) :
    let files := first ++ second
    let report := ofFiles root files skipped
    let one := ofFiles root first left
    let other := ofFiles root second right
    (report.files = one.files ++ other.files ∧
      report.summary = one.summary ++ other.summary ∧
      report.totals = one.totals + other.totals) ∧
    (∀ before file behind, files = before ++ file :: behind →
      report.files[before.length]? = some ⟨file.path, Digest.ofLines file.lines⟩) ∧
    report.totals.lines
      = (files.flatMap fun file =>
          file.lines.filter fun line => !Text.allBlank line.toList).length ∧
    report.totals.classified
      = report.totals.features + report.totals.scenarios + report.totals.states
        + report.totals.actions + report.totals.outcomes ∧
    report.totals.classified ≤ report.totals.lines ∧
    ∀ places : List Nat, places.Perm (List.range files.length) →
      (ofFiles root (arranged places files) skipped).files = arranged places report.files ∧
        (ofFiles root (arranged places files) skipped).totals = report.totals := by
  intro files report one other
  refine ⟨⟨?_, ?_, ?_⟩, ?_, ?_, rfl, ?_, ?_⟩
  · exact files_append root first second skipped left right
  · exact summary_append root first second skipped left right
  · exact totals_append root first second skipped left right
  · intro before file behind hfiles
    have hreport : report.files
        = before.map FileReport.ofFile
          ++ FileReport.ofFile file :: behind.map FileReport.ofFile := by
      change files.map FileReport.ofFile = _
      rw [hfiles, List.map_append, List.map_cons]
    rw [hreport, List.getElem?_append_right (by simp)]
    simp [FileReport.ofFile]
  · exact congrArg List.length (lines_summary root files)
  · exact classified_le_lines root files
  · intro places hplaces
    exact ⟨arranged_map FileReport.ofFile places files,
      totals_eq_of_perm root (arranged_perm hplaces)⟩

/-- Two files in the other order: the continuation that opens the second file belongs to
no step of the first, and the totals stay the same. -/
theorem ofFiles_append_swapped :
    let cart : FeatureFile := ⟨⟨"/cart.feature"⟩, ["Given a cart", "", "And an item"]⟩
    let pay : FeatureFile := ⟨⟨"/pay.feature"⟩, ["And a card", "When I pay"]⟩
    let report := ofFiles ⟨"/"⟩ ([cart] ++ [pay]) 0
    let swapped := ofFiles ⟨"/"⟩ [pay, cart] 0
    report.files[1]?
        = some ⟨⟨"/pay.feature"⟩, Digest.ofLines ["And a card", "When I pay"]⟩ ∧
      swapped.files = [FileReport.ofFile pay, FileReport.ofFile cart] ∧
      swapped.totals = report.totals ∧
      report.totals = ⟨2, 4, 3, 0, 0, 2, 1, 0⟩ := by
  intro cart pay report swapped
  obtain ⟨-, hfile, -, -, -, harranged⟩ := ofFiles_append ⟨"/"⟩ [cart] [pay] 0 0 0
  obtain ⟨hfiles, htotals⟩ := harranged [1, 0] (List.Perm.swap 0 1 [])
  exact ⟨hfile [cart] pay [] rfl, hfiles, htotals, by decide⟩

end Report

end FeatureDigest
