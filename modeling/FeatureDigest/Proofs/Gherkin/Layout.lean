import FeatureDigest.Proofs.Gherkin.LookBack
import FeatureDigest.Text.Lines

/-!
# Written feature files

A feature file can be written in many ways: lines are indented, blank lines stand between them,
a step goes on with `And ` or `But `, and lines end in two ways.  However a list of items is
written, its digest has the texts of these items and counts nothing else (`ofLines_of_writes`).

Two layers are undone one after the other: splitting the text gives lines that lay out the items
(`lays_linesOf`), and the entries of such lines state the items (`item?_entriesFrom`).
-/

set_option autoImplicit false

namespace FeatureDigest.Gherkin

open FeatureDigest.Text

/-! ## Ways to write items -/

/-- Blank characters within a line. -/
structure IsIndent (indent : List Char) : Prop where
  blank : allBlank indent = true
  inLine : '\n' ∉ indent

/-- A text that a line can end with: a line feed, or a carriage return at its end, would belong
to the end of the line. -/
structure FitsLine (text : List Char) : Prop where
  inLine : '\n' ∉ text
  noReturn : text.getLast? ≠ some '\r'

/-- The kind of step that an item is. -/
def Item.step? (item : Item) : Option Step :=
  match item.kind with
  | .step step => some step
  | _ => none

/-- The kind of the last step among some items. -/
def lastStep? (items : List Item) : Option Step := items.reverse.findSome? Item.step?

/-- The keyword of a kind. -/
def Kind.word : Kind → String
  | .feature => "Feature: "
  | .scenario => "Scenario: "
  | .step kind => kind.word

/-- What an item of a kind can start with after other items: the keyword of its kind, or, when
the last step before it is of the same kind, a word that continues it. -/
inductive Opens (before : List Item) : Kind → String → Prop
  | own (kind : Kind) : Opens before kind kind.word
  | continuing {step : Step} {word : String} (last : lastStep? before = some step)
      (continues : word = "And " ∨ word = "But ") : Opens before (.step step) word

/-- Lines that lay out items after other items: one line for each item, between blank lines. -/
inductive Lays : (before items : List Item) → List (List Char) → Prop
  | done {before : List Item} : Lays before [] []
  | blank {before items : List Item} {line : List Char} {lines : List (List Char)}
      (indent : IsIndent line) (rest : Lays before items lines) :
      Lays before items (line :: lines)
  | item {before items : List Item} {item : Item} {indent : List Char} {word : String}
      {lines : List (List Char)} (indented : IsIndent indent)
      (opens : Opens before item.kind word) (fits : FitsLine item.text)
      (rest : Lays (before ++ [item]) items lines) :
      Lays before (item :: items) ((indent ++ (word.toList ++ item.text)) :: lines)

/-- A text of lines, each of which ends in a line feed with or without a carriage return before
it; the last one may go without. -/
inductive Ended : (lines : List (List Char)) → (text : List Char) → Prop
  | nil : Ended [] []
  | last (line : List Char) : Ended [line] line
  | feed {line text : List Char} {lines : List (List Char)} (rest : Ended lines text) :
      Ended (line :: lines) (line ++ '\n' :: text)
  | returnFeed {line text : List Char} {lines : List (List Char)} (rest : Ended lines text) :
      Ended (line :: lines) (line ++ ['\r'] ++ '\n' :: text)

/-- A text that writes items. -/
def Writes (items : List Item) (text : String) : Prop :=
  ∃ lines, Lays [] items lines ∧ Ended lines text.toList

/-! ## The lines of a written file -/

theorem FitsLine.prepend {first second : List Char} (hfirst : '\n' ∉ first)
    (hsecond : FitsLine second) (hne : second ≠ []) : FitsLine (first ++ second) := by
  refine ⟨?_, ?_⟩
  · rw [List.mem_append, not_or]
    exact ⟨hfirst, hsecond.inLine⟩
  · have hlast := hsecond.noReturn
    rw [List.getLast?_eq_some_getLast hne] at hlast
    rw [List.getLast?_append, List.getLast?_eq_some_getLast hne]
    exact hlast

theorem FitsLine.append {first second : List Char} (hfirst : FitsLine first)
    (hsecond : FitsLine second) : FitsLine (first ++ second) := by
  by_cases hne : second = []
  · rw [hne, List.append_nil]
    exact hfirst
  · exact hsecond.prepend hfirst.inLine hne

theorem FitsLine.dropLineReturn {line : List Char} (h : FitsLine line) :
    Text.dropLineReturn line = line := by
  rcases dropLineReturn_cases line with hsame | hdropped
  · exact hsame
  · have hlast := h.noReturn
    rw [hdropped, List.getLast?_concat] at hlast
    exact absurd rfl hlast

theorem IsIndent.dropLineReturn {indent : List Char} (h : IsIndent indent) :
    IsIndent (Text.dropLineReturn indent) := by
  rcases dropLineReturn_cases indent with hsame | hdropped
  · rw [hsame]
    exact h
  · obtain ⟨hblank, hline⟩ := h
    rw [hdropped] at hblank hline
    rw [allBlank, List.all_append, Bool.and_eq_true] at hblank
    exact ⟨hblank.1, fun hmem => hline (List.mem_append_left _ hmem)⟩

theorem Kind.toList_word (kind : Kind) : kind.word.toList = kind.keyword := by
  rcases kind with _ | _ | (_ | _ | _) <;> rfl

/-- What an item can start with stands in one line, and its first character is not blank. -/
theorem Opens.fits {before : List Item} {kind : Kind} {word : String}
    (h : Opens before kind word) :
    FitsLine word.toList ∧ ∃ c rest, word.toList = c :: rest ∧ isBlank c = false := by
  have hfits {text : List Char} (h : ('\n' ∉ text ∧ text.getLast? ≠ some '\r') ∧
      text.head?.map isBlank = some false) :
      FitsLine text ∧ ∃ c rest, text = c :: rest ∧ isBlank c = false := by
    obtain ⟨⟨hline, hlast⟩, hhead⟩ := h
    cases text with
    | nil => cases hhead
    | cons c rest => exact ⟨⟨hline, hlast⟩, c, rest, rfl, by simpa using hhead⟩
  apply hfits
  cases h with
  | own => rcases kind with _ | _ | (_ | _ | _) <;> decide
  | continuing _ hcontinues => rcases hcontinues with rfl | rfl <;> decide

/-- An item's line has more than blanks, and no part of a line's end. -/
theorem Opens.fits_line {before : List Item} {kind : Kind} {indent text : List Char}
    {word : String} (h : Opens before kind word) (hindent : IsIndent indent)
    (htext : FitsLine text) :
    FitsLine (indent ++ (word.toList ++ text)) ∧ indent ++ (word.toList ++ text) ≠ [] ∧
      unindent (indent ++ (word.toList ++ text)) = word.toList ++ text := by
  obtain ⟨hword, c, rest, heq, hblank⟩ := h.fits
  have hfits := hword.append htext
  rw [heq] at hfits ⊢
  refine ⟨hfits.prepend hindent.inLine (by simp), by simp, ?_⟩
  rw [unindent_append_of_allBlank _ hindent.blank, List.cons_append, unindent,
    List.dropWhile_cons, hblank]
  rfl

theorem Lays.inLine {before items : List Item} {lines : List (List Char)}
    (h : Lays before items lines) : ∀ line ∈ lines, '\n' ∉ line := by
  induction h with
  | done => simp
  | blank hindent _ ih =>
    intro line hmem
    rcases List.mem_cons.1 hmem with rfl | hmem
    · exact hindent.inLine
    · exact ih line hmem
  | item hindent hopens hfits _ ih =>
    intro line hmem
    rcases List.mem_cons.1 hmem with rfl | hmem
    · exact (hopens.fits_line hindent hfits).1.inLine
    · exact ih line hmem

/-- A carriage return at the end of a laid out line is no part of an item. -/
theorem Lays.dropLineReturn {before items : List Item} {line : List Char}
    {lines others : List (List Char)} (h : Lays before items (line :: lines))
    (hrest : ∀ before items, Lays before items lines → Lays before items others) :
    Lays before items (Text.dropLineReturn line :: others) := by
  cases h with
  | blank hindent hlays => exact .blank hindent.dropLineReturn (hrest _ _ hlays)
  | item hindent hopens hfits hlays =>
    rw [(hopens.fits_line hindent hfits).1.dropLineReturn]
    exact .item hindent hopens hfits (hrest _ _ hlays)

/-- The lines of the text lay out what the lines laid out that it was made of.  They may differ
from these at the ends of blank lines. -/
theorem lays_linesOf {lines : List (List Char)} {text : List Char} (h : Ended lines text) :
    ∀ before items, Lays before items lines → Lays before items (linesOf text) := by
  induction h with
  | nil =>
    intro before items hlays
    exact hlays
  | last line =>
    intro before items hlays
    rw [linesOf_of_not_mem line (hlays.inLine line List.mem_cons_self)]
    split
    · rename_i hempty
      cases hlays with
      | blank _ hrest => exact hrest
      | item hindent hopens hfits _ =>
        exact absurd (List.isEmpty_iff.1 hempty) (hopens.fits_line hindent hfits).2.1
    · exact hlays
  | @feed line text lines _ ih =>
    intro before items hlays
    rw [linesOf_append_newline line text (hlays.inLine line List.mem_cons_self)]
    exact hlays.dropLineReturn ih
  | @returnFeed line text lines _ ih =>
    intro before items hlays
    have hline : '\n' ∉ line ++ ['\r'] := by
      simpa using hlays.inLine line List.mem_cons_self
    rw [linesOf_append_newline _ text hline, dropLineReturn_append_return]
    cases hlays with
    | blank hindent hrest => exact .blank hindent (ih _ _ hrest)
    | item hindent hopens hfits hrest => exact .item hindent hopens hfits (ih _ _ hrest)

/-! ## The entries of laid out lines -/

/-- The item is read back from where its line starts to say something. -/
theorem Opens.item? {before : List Item} {item : Item} {word : String}
    (h : Opens before item.kind word) :
    item? (lastStep? before) (word.toList ++ item.text) = some item := by
  obtain ⟨kind, text⟩ := item
  rw [item?_eq_some_iff, Kind.text?_eq_some_iff]
  cases h with
  | own =>
    rw [Kind.toList_word]
    exact Or.inl (afterKeyword?_eq_some_iff.2 rfl)
  | @continuing step word hlast hcontinues =>
    refine Or.inr ⟨step, rfl, hlast, ?_⟩
    rcases hcontinues with rfl | rfl <;> rfl

theorem contextAfter_lastStep? (before : List Item) (item : Item) :
    contextAfter (lastStep? before) (some item) = lastStep? (before ++ [item]) := by
  obtain ⟨kind, text⟩ := item
  rw [lastStep?, lastStep?, List.reverse_append, List.reverse_singleton,
    List.singleton_append, List.findSome?_cons]
  cases kind <;> rfl

/-- Each line that is not blank states the item that it was laid out for. -/
theorem item?_entriesFrom {before items : List Item} {lines : List (List Char)}
    (h : Lays before items lines) :
    (entriesFrom Kind.all (lastStep? before) (lines.map String.ofList)).map Entry.item?
      = items.map some := by
  induction h with
  | done => rfl
  | @blank before items line lines hindent _ ih =>
    have hblank : unindent (String.ofList line).toList = [] := by
      rw [String.toList_ofList]
      exact (unindent_eq_nil_iff line).2 hindent.blank
    rw [List.map_cons, entriesFrom]
    simp only [hblank, List.isEmpty_nil, if_true]
    exact ih
  | @item before items item indent word lines hindent hopens hfits _ ih =>
    have htext : unindent (String.ofList (indent ++ (word.toList ++ item.text))).toList
        = word.toList ++ item.text := by
      rw [String.toList_ofList]
      exact (hopens.fits_line hindent hfits).2.2
    obtain ⟨_, c, rest, hword, _⟩ := hopens.fits
    have hfull : (word.toList ++ item.text).isEmpty = false := by
      rw [hword]
      rfl
    have hitem : itemBy? Kind.all (lastStep? before) (word.toList ++ item.text) = some item :=
      hopens.item?
    rw [List.map_cons, entriesFrom]
    simp only [htext, hfull, hitem, contextAfter_lastStep?, Bool.false_eq_true, if_false,
      List.map_cons, ih]

/-! ## The digest of a written file -/

/-- The texts of a kind among entries are those of the items that the entries state. -/
theorem filterMap_textOf? {entries : List Entry} {items : List Item}
    (h : entries.map Entry.item? = items.map some) (kind : Kind) :
    entries.filterMap (Digest.textOf? kind)
      = (items.filter fun item => item.kind = kind).map fun item =>
          String.ofList item.text := by
  induction items generalizing entries with
  | nil =>
    rw [List.map_nil, List.map_eq_nil_iff] at h
    rw [h]
    rfl
  | cons item items ih =>
    obtain ⟨entry, rest, rfl, hitem, hrest⟩ := List.map_eq_cons_iff.1 h
    rw [List.filterMap_cons, List.filter_cons, ih hrest, Digest.textOf?, hitem]
    by_cases hkind : item.kind = kind <;> simp [hkind]

/-- However items are written in a text, the digest of its lines holds in each bucket the texts
of the items of that kind in their order, and every line that it keeps is one of the items. -/
theorem ofLines_of_writes {items : List Item} {text : String} (h : Writes items text) :
    (∀ kind, (Digest.ofLines (lines text)).bucket kind
        = (items.filter fun item => item.kind = kind).map fun item =>
            String.ofList item.text) ∧
      (Digest.ofLines (lines text)).classified = (Digest.ofLines (lines text)).lines.length ∧
      (Digest.ofLines (lines text)).lines.length = items.length := by
  obtain ⟨laid, hlays, hended⟩ := h
  have hlines : Lays [] items (linesOf text.toList) := lays_linesOf hended [] items hlays
  have hentries : (entriesBy Kind.all (lines text)).map Entry.item? = items.map some :=
    item?_entriesFrom hlines
  have hdigest : Digest.ofLines (lines text)
      = Digest.ofEntries (entriesBy Kind.all (lines text)) := rfl
  have hcount : (entriesBy Kind.all (lines text)).length = items.length := by
    have hlength := congrArg List.length hentries
    rwa [List.length_map, List.length_map] at hlength
  have hall : (entriesBy Kind.all (lines text)).filter (fun entry => entry.item?.isSome)
      = entriesBy Kind.all (lines text) := by
    apply List.filter_eq_self.2
    intro entry hentry
    have hmem : entry.item? ∈ items.map some := by
      rw [← hentries]
      exact List.mem_map_of_mem hentry
    obtain ⟨item, _, hitem⟩ := List.mem_map.1 hmem
    rw [← hitem]
    rfl
  refine ⟨?_, ?_, ?_⟩
  · intro kind
    rw [hdigest, Digest.bucket_ofEntries]
    exact filterMap_textOf? hentries kind
  · rw [hdigest, Digest.classified_ofEntries, hall]
    exact (List.length_map ..).symm
  · rw [hdigest, ← hcount]
    exact List.length_map ..

/-- Items with no text, a blank text and texts that look like lines of their own. -/
def oddItems : List Item :=
  [⟨.feature, []⟩, ⟨.step .state, "Feature: x".toList⟩, ⟨.scenario, [' ', ' ']⟩,
    ⟨.step .state, "Given y".toList⟩, ⟨.step .outcome, "Then".toList⟩]

/-- Lines for these items, one of them blank and one with a continuation. -/
def oddLines : List (List Char) :=
  [['\u0085'] ++ (Kind.feature.word.toList ++ []), ['\u3000'],
    ['\t'] ++ ((Kind.step .state).word.toList ++ "Feature: x".toList),
    [] ++ (Kind.scenario.word.toList ++ [' ', ' ']),
    [] ++ ("But ".toList ++ "Given y".toList),
    [] ++ ((Kind.step .outcome).word.toList ++ "Then".toList)]

/-- A file of these lines, which end in both ways, and the last one in neither. -/
def oddText : String :=
  "\u0085Feature: \r\n\u3000\n\tGiven Feature: x\nScenario:   \nBut Given y\r\nThen Then"

theorem lays_oddLines : Lays [] oddItems oddLines := by
  have hindent (indent : List Char) (h : allBlank indent = true ∧ '\n' ∉ indent) :
      IsIndent indent := ⟨h.1, h.2⟩
  have hfits (text : List Char) (h : '\n' ∉ text ∧ text.getLast? ≠ some '\r') :
      FitsLine text := ⟨h.1, h.2⟩
  have hbut : Opens [⟨.feature, []⟩, ⟨.step .state, "Feature: x".toList⟩,
      ⟨.scenario, [' ', ' ']⟩] (.step .state) "But " := .continuing rfl (Or.inr rfl)
  exact
    .item (hindent _ (by decide)) (.own _) (hfits _ (by decide))
      (.blank (hindent _ (by decide))
        (.item (hindent _ (by decide)) (.own _) (hfits _ (by decide))
          (.item (hindent _ (by decide)) (.own _) (hfits _ (by decide))
            (.item (hindent _ (by decide)) hbut (hfits _ (by decide))
              (.item (hindent _ (by decide)) (.own _) (hfits _ (by decide)) .done)))))

theorem writes_oddText : Writes oddItems oddText := by
  have hended : ∃ text, Ended oddLines text ∧ String.ofList text = oddText :=
    ⟨_, .returnFeed (.feed (.feed (.feed (.returnFeed (.last _))))), by decide +kernel⟩
  obtain ⟨text, hended, htext⟩ := hended
  rw [← htext]
  exact ⟨oddLines, lays_oddLines, by rwa [String.toList_ofList]⟩

theorem ofLines_of_writes_oddText :
    Writes oddItems oddText ∧
      (Digest.ofLines (lines oddText)).features = [""] ∧
      (Digest.ofLines (lines oddText)).scenarios = ["  "] ∧
      (Digest.ofLines (lines oddText)).states = ["Feature: x", "Given y"] ∧
      (Digest.ofLines (lines oddText)).outcomes = ["Then"] ∧
      (Digest.ofLines (lines oddText)).classified = 5 := by
  obtain ⟨hbuckets, hclassified, hlines⟩ := ofLines_of_writes writes_oddText
  refine ⟨writes_oddText, hbuckets .feature, hbuckets .scenario, hbuckets (.step .state),
    hbuckets (.step .outcome), ?_⟩
  rw [hclassified, hlines]
  rfl

end FeatureDigest.Gherkin
