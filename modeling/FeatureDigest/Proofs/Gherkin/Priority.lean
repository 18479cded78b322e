import FeatureDigest.Proofs.Gherkin.LookBack

/-!
# The order in which kinds are tried

A line is tried for one kind after the other and states an item of the first one that fits.  No
two kinds fit one line, whatever step came before it (`length_fitting_le_one`), so the order
decides nothing: not the item of a line (`itemBy?_eq_item?`), hence not the context that it leaves,
and by induction on the lines no entry of a file (`entriesFrom_eq_all`).
-/

set_option autoImplicit false

namespace FeatureDigest.Gherkin

/-! ## Kinds that fit a text -/

/-- The kinds of which a text states an item. -/
def fitting (context : Option Step) (text : List Char) : List Kind :=
  Kind.all.filter fun kind => (kind.text? context text).isSome

theorem mem_fitting_iff {context : Option Step} {text : List Char} {kind : Kind} :
    kind ∈ fitting context text ↔ ∃ rest, kind.text? context text = some rest := by
  rw [fitting, List.mem_filter, Option.isSome_iff_exists]
  exact and_iff_right kind.mem_all

theorem nodup_fitting (context : Option Step) (text : List Char) :
    (fitting context text).Nodup := by
  have hall : Kind.all.Nodup := by decide
  exact hall.filter _

theorem length_fitting_le_one (context : Option Step) (text : List Char) :
    (fitting context text).length ≤ 1 := by
  have hnodup := nodup_fitting context text
  have hunique {first second : Kind} (hfirst : first ∈ fitting context text)
      (hsecond : second ∈ fitting context text) : first = second := by
    obtain ⟨rest, hrest⟩ := mem_fitting_iff.1 hfirst
    obtain ⟨other, hother⟩ := mem_fitting_iff.1 hsecond
    exact Kind.text?_unique hrest hother
  generalize fitting context text = kinds at hnodup hunique
  match kinds with
  | [] => exact Nat.zero_le 1
  | [_] => exact Nat.le_refl 1
  | first :: second :: rest =>
    have hsame : first = second :=
      hunique List.mem_cons_self (List.mem_cons_of_mem first List.mem_cons_self)
    rw [hsame, List.nodup_cons] at hnodup
    exact absurd List.mem_cons_self hnodup.1

/-- Without a step before it, a text states an item when it starts with the keyword of a kind. -/
theorem fitting_none_ne_nil_iff {text : List Char} :
    fitting none text ≠ [] ↔ ∃ kind : Kind, kind.keyword <+: text := by
  constructor
  · intro hne
    obtain ⟨kind, hkind⟩ := List.exists_mem_of_ne_nil _ hne
    obtain ⟨rest, hrest⟩ := mem_fitting_iff.1 hkind
    rcases Kind.text?_eq_some_iff.1 hrest with hkeyword | ⟨_, _, hnone, _⟩
    · exact ⟨kind, rest, (afterKeyword?_eq_some_iff.1 hkeyword).symm⟩
    · cases hnone
  · rintro ⟨kind, rest, hrest⟩
    have htext := kind.text?_of_keyword (afterKeyword?_eq_some_iff.2 hrest.symm) none
    exact List.ne_nil_of_mem (mem_fitting_iff.2 ⟨rest, htext⟩)

theorem exists_keyword_prefix_iff {text : List Char} :
    (∃ kind : Kind, kind.keyword <+: text)
      ↔ ∃ keyword ∈ ["Feature: ", "Scenario: ", "Given ", "When ", "Then "],
          keyword.toList <+: text := by
  constructor
  · rintro ⟨_ | _ | (_ | _ | _), hprefix⟩
    · exact ⟨"Feature: ", by simp, hprefix⟩
    · exact ⟨"Scenario: ", by simp, hprefix⟩
    · exact ⟨"Given ", by simp, hprefix⟩
    · exact ⟨"When ", by simp, hprefix⟩
    · exact ⟨"Then ", by simp, hprefix⟩
  · simp only [List.mem_cons, List.not_mem_nil, or_false]
    rintro ⟨keyword, rfl | rfl | rfl | rfl | rfl, hprefix⟩
    · exact ⟨.feature, hprefix⟩
    · exact ⟨.scenario, hprefix⟩
    · exact ⟨.step .state, hprefix⟩
    · exact ⟨.step .action, hprefix⟩
    · exact ⟨.step .outcome, hprefix⟩

/-! ## Orders that have every kind -/

section

variable {order : List Kind} (hall : ∀ kind, kind ∈ order)

include hall

theorem itemBy?_eq_item? (context : Option Step) (text : List Char) :
    itemBy? order context text = item? context text := by
  apply Option.ext
  rintro ⟨kind, rest⟩
  rw [itemBy?_eq_some_iff hall, item?_eq_some_iff]

theorem entriesFrom_eq_all (context : Option Step) (lines : List String) :
    entriesFrom order context lines = entriesFrom Kind.all context lines := by
  induction lines generalizing context with
  | nil => rfl
  | cons line lines ih =>
    rw [entriesFrom, entriesFrom]
    dsimp only
    split
    · exact ih context
    · -- The item is the same, so the rest is read from the same context.
      rw [itemBy?_eq_item? hall, ih]
      rfl

end

/-- At most one of the five kinds fits a text, in every context, and without a context one does
exactly when the text starts with one of the five keywords.  So lines have the same digest in
whatever order the kinds are tried. -/
theorem ofLinesBy_eq_ofLines :
    (∀ (context : Option Step) (text : List Char),
        (Kind.all.filter fun kind => (kind.text? context text).isSome).length ≤ 1) ∧
      (∀ text : List Char,
        (Kind.all.filter fun kind => (kind.text? none text).isSome) ≠ []
          ↔ ∃ keyword ∈ ["Feature: ", "Scenario: ", "Given ", "When ", "Then "],
              keyword.toList <+: text) ∧
      ∀ order : List Kind, order.Perm Kind.all → ∀ lines : List String,
        Digest.ofLinesBy order lines = Digest.ofLines lines := by
  refine ⟨length_fitting_le_one, ?_, ?_⟩
  · intro text
    exact fitting_none_ne_nil_iff.trans exists_keyword_prefix_iff
  · intro order hperm lines
    have hall (kind : Kind) : kind ∈ order := hperm.mem_iff.2 kind.mem_all
    rw [Digest.ofLines, Digest.ofLinesBy, Digest.ofLinesBy, entriesBy, entriesBy,
      entriesFrom_eq_all hall]

/-- Lines with keywords of several kinds in them, one of them a continuation. -/
def mixedLines : List String :=
  ["And lost", "Then Given x", " Feature: When ", "But Scenario: y", "When Then"]

theorem ofLinesBy_eq_ofLines_reversed :
    Kind.all.reverse.Perm Kind.all ∧
      Digest.ofLinesBy Kind.all.reverse mixedLines
        = ⟨mixedLines, ["When "], [], [], ["Then"], ["Given x", "Scenario: y"]⟩ := by
  obtain ⟨-, -, horder⟩ := ofLinesBy_eq_ofLines
  have hperm : Kind.all.reverse.Perm Kind.all := List.reverse_perm Kind.all
  exact ⟨hperm, (horder _ hperm mixedLines).trans (by decide +kernel)⟩

end FeatureDigest.Gherkin
