import FeatureDigest.Gherkin.Digest
import FeatureDigest.Text.Lines

/-!
# Where the characters of a digest come from

All that a digest holds is taken from the lines that were digested, and these from the text of
a file: no character appears that was not there before (`mem_lines_of_mem_item`), and line
feeds are gone (`mem_text_of_mem_line`).
-/

set_option autoImplicit false

namespace FeatureDigest

namespace Text

theorem mem_of_mem_dropLineReturn {c : Char} {line : List Char} (h : c ∈ dropLineReturn line) :
    c ∈ line := by
  rcases dropLineReturn_cases line with heq | heq
  · rwa [heq] at h
  · rw [heq]
    exact List.mem_append_left _ h

theorem mem_linesFrom {c : Char} {line text reversed : List Char}
    (hreversed : '\n' ∉ reversed) (hline : line ∈ linesFrom reversed text) (hc : c ∈ line) :
    (c ∈ reversed ∨ c ∈ text) ∧ c ≠ '\n' := by
  induction text generalizing reversed with
  | nil =>
    rw [linesFrom] at hline
    split at hline
    · cases hline
    · rw [List.mem_singleton.1 hline, List.mem_reverse] at hc
      refine ⟨Or.inl hc, ?_⟩
      rintro rfl
      exact hreversed hc
  | cons first rest ih =>
    rw [linesFrom] at hline
    by_cases hfirst : first = '\n'
    · rw [if_pos hfirst, List.mem_cons] at hline
      rcases hline with rfl | hline
      · have hmem := List.mem_reverse.1 (mem_of_mem_dropLineReturn hc)
        refine ⟨Or.inl hmem, ?_⟩
        rintro rfl
        exact hreversed hmem
      · rcases ih (List.not_mem_nil) hline with ⟨hmem | hmem, hne⟩
        · cases hmem
        · exact ⟨Or.inr (List.mem_cons_of_mem first hmem), hne⟩
    · rw [if_neg hfirst] at hline
      have hunbroken : '\n' ∉ first :: reversed := by
        rw [List.mem_cons, not_or]
        exact ⟨fun heq => hfirst heq.symm, hreversed⟩
      obtain ⟨hmem, hne⟩ := ih hunbroken hline
      refine ⟨?_, hne⟩
      rcases hmem with hmem | hmem
      · rcases List.mem_cons.1 hmem with rfl | hmem
        · exact Or.inr List.mem_cons_self
        · exact Or.inl hmem
      · exact Or.inr (List.mem_cons_of_mem first hmem)

/-- The characters of a line are those of the text, but no line feeds. -/
theorem mem_text_of_mem_line {c : Char} {line text : String} (hline : line ∈ lines text)
    (hc : c ∈ line.toList) : c ∈ text.toList ∧ c ≠ '\n' := by
  obtain ⟨chars, hchars, rfl⟩ := List.mem_map.1 hline
  rw [String.toList_ofList] at hc
  rcases mem_linesFrom List.not_mem_nil hchars hc with ⟨hmem | hmem, hne⟩
  · cases hmem
  · exact ⟨hmem, hne⟩

end Text

namespace Gherkin

theorem mem_of_mem_afterKeyword {c : Char} {keyword line rest : List Char}
    (h : afterKeyword? keyword line = some rest) (hc : c ∈ rest) : c ∈ line := by
  rw [afterKeyword?_eq_some_iff.1 h]
  exact List.mem_append_right keyword hc

theorem Kind.mem_of_mem_text {c : Char} {kind : Kind} {context : Option Step}
    {text rest : List Char} (h : kind.text? context text = some rest) (hc : c ∈ rest) :
    c ∈ text := by
  unfold Kind.text? at h
  split at h
  · rename_i own hown
    cases h
    exact mem_of_mem_afterKeyword hown hc
  · split at h
    · split at h
      · obtain ⟨keyword, _, hafter⟩ := List.exists_of_findSome?_eq_some h
        exact mem_of_mem_afterKeyword hafter hc
      · cases h
    · cases h

theorem mem_of_mem_itemBy {c : Char} {order : List Kind} {context : Option Step}
    {text : List Char} {item : Item} (h : itemBy? order context text = some item)
    (hc : c ∈ item.text) : c ∈ text := by
  obtain ⟨kind, _, hkind⟩ := List.exists_of_findSome?_eq_some h
  obtain ⟨rest, hrest, rfl⟩ := Option.map_eq_some_iff.1 hkind
  exact Kind.mem_of_mem_text hrest hc

theorem mem_of_mem_entry {order : List Kind} {context : Option Step} {lines : List String}
    {entry : Entry} (h : entry ∈ entriesFrom order context lines) :
    entry.line ∈ lines ∧
      ∀ item, entry.item? = some item → ∀ c ∈ item.text, c ∈ entry.line.toList := by
  induction lines generalizing context with
  | nil => cases h
  | cons line lines ih =>
    rw [entriesFrom] at h
    dsimp only at h
    split at h
    · obtain ⟨hline, hitem⟩ := ih h
      exact ⟨List.mem_cons_of_mem line hline, hitem⟩
    · rcases List.mem_cons.1 h with rfl | h
      · refine ⟨List.mem_cons_self, ?_⟩
        intro item hitem c hc
        exact (List.dropWhile_sublist _).mem (mem_of_mem_itemBy hitem hc)
      · obtain ⟨hline, hitem⟩ := ih h
        exact ⟨List.mem_cons_of_mem line hline, hitem⟩

namespace Digest

/-- The characters of an item are those of a line. -/
theorem mem_lines_of_mem_item {c : Char} {kind : Kind} {item : String} {lines : List String}
    (h : item ∈ (ofLines lines).bucket kind) (hc : c ∈ item.toList) :
    ∃ line ∈ lines, c ∈ line.toList := by
  rw [ofLines, ofLinesBy, bucket_ofEntries, List.mem_filterMap] at h
  obtain ⟨entry, hentry, htext⟩ := h
  obtain ⟨hline, hitem⟩ := mem_of_mem_entry hentry
  refine ⟨entry.line, hline, ?_⟩
  unfold textOf? at htext
  split at htext
  · rename_i stated hstated
    split at htext
    · cases htext
      rw [String.toList_ofList] at hc
      exact hitem stated hstated c hc
    · cases htext
  · cases htext

end Digest

end Gherkin

end FeatureDigest
