import Mathlib.Data.List.NodupEquivFin
import FeatureDigest.Proofs.Gherkin.LookBack

/-!
# Where the texts of a digest come from

However a digest was put together from the digests of files, each of its texts has a place: the
line that states it.  Within a kind the places go up, and no line is the place of two texts
(`placed_digest`), so no more lines are classified than there are.

The invariant is that a digest collects sound entries (`exists_entries`).  Reading a file makes
such entries, and extending a digest only puts the entries of two digests one after the other.
-/

set_option autoImplicit false

namespace FeatureDigest.Gherkin

open FeatureDigest.Text

/-! ## Ways to make a digest -/

/-- How a digest was made: of no file, of the lines of one, or by extending a digest with
another. -/
inductive Making
  | empty
  | file (lines : List String)
  | extended (first second : Making)

/-- The digest that was made. -/
def Making.digest : Making → Digest
  | .empty => .empty
  | .file lines => .ofLines lines
  | .extended first second => first.digest ++ second.digest

/-- The keywords that can make a line one of a kind. -/
def Kind.keywords : Kind → List (List Char)
  | .feature => [Kind.feature.keyword]
  | .scenario => [Kind.scenario.keyword]
  | .step kind => (Kind.step kind).keyword :: continuations

/-- The text is what remains of the line after a keyword of the kind, blanks before it aside. -/
def Kind.Remains (kind : Kind) (line text : String) : Prop :=
  ∃ keyword ∈ kind.keywords, unindent line.toList = keyword ++ text.toList

/-- Each text of a digest has a line as its place. -/
structure Placed (digest : Digest)
    (place : (kind : Kind) → Fin (digest.bucket kind).length → Fin digest.lines.length) :
    Prop where
  /-- The texts of a kind stand in the order of their lines, each in a line of its own. -/
  strictMono : ∀ kind, StrictMono (place kind)
  remains : ∀ (kind : Kind) (i : Fin (digest.bucket kind).length),
    kind.Remains (digest.lines.get (place kind i)) ((digest.bucket kind).get i)
  /-- Texts of two kinds stand in two lines. -/
  ne : ∀ kind other, kind ≠ other → ∀ i j, place kind i ≠ place other j

/-! ## Sound entries -/

/-- An entry is a line that is not blank, and its item is what remains of the line. -/
structure Entry.Sound (entry : Entry) : Prop where
  notBlank : allBlank entry.line.toList = false
  remains : ∀ kind text, Digest.textOf? kind entry = some text → kind.Remains entry.line text

theorem Kind.remains_of_text? {kind : Kind} {context : Option Step} {line : String}
    {rest : List Char} (h : kind.text? context (unindent line.toList) = some rest) :
    kind.Remains line (String.ofList rest) := by
  rw [Kind.text?_eq_some_iff] at h
  rcases h with hown | ⟨step, rfl, _, hcontinued⟩
  · refine ⟨kind.keyword, ?_, ?_⟩
    · cases kind <;> exact List.mem_cons_self
    · rw [String.toList_ofList]
      exact afterKeyword?_eq_some_iff.1 hown
  · obtain ⟨keyword, hmem, hafter⟩ := List.exists_of_findSome?_eq_some hcontinued
    refine ⟨keyword, List.mem_cons_of_mem _ hmem, ?_⟩
    rw [String.toList_ofList]
    exact afterKeyword?_eq_some_iff.1 hafter

/-- Whatever the context, the entries of lines are sound. -/
theorem sound_entriesFrom {context : Option Step} {lines : List String} :
    ∀ entry ∈ entriesFrom Kind.all context lines, entry.Sound := by
  induction lines generalizing context with
  | nil => exact fun _ hmem => nomatch hmem
  | cons line lines ih =>
    intro entry hmem
    rw [entriesFrom] at hmem
    dsimp only at hmem
    split at hmem
    · exact ih entry hmem
    · rename_i hshown
      rcases List.mem_cons.1 hmem with rfl | hmem
      · constructor
        · rw [← Bool.not_eq_true, ← unindent_eq_nil_iff]
          exact fun hblank => hshown (List.isEmpty_iff.2 hblank)
        · intro kind text htext
          have hitem := textOf?_item kind context line
          rw [item?] at hitem
          rw [hitem, Option.map_eq_some_iff] at htext
          obtain ⟨rest, hrest, rfl⟩ := htext
          exact Kind.remains_of_text? hrest
      · exact ih entry hmem

/-- A digest collects sound entries, however it was made. -/
theorem exists_entries (making : Making) :
    ∃ entries, making.digest = Digest.ofEntries entries ∧ ∀ entry ∈ entries, entry.Sound := by
  induction making with
  | empty => exact ⟨[], rfl, fun _ hmem => nomatch hmem⟩
  | file lines => exact ⟨_, rfl, sound_entriesFrom⟩
  | extended first second ihfirst ihsecond =>
    obtain ⟨left, hleft, hsoundLeft⟩ := ihfirst
    obtain ⟨right, hright, hsoundRight⟩ := ihsecond
    refine ⟨left ++ right, ?_, ?_⟩
    · rw [Making.digest, hleft, hright, Digest.ofEntries_append]
    · intro entry hmem
      rcases List.mem_append.1 hmem with hmem | hmem
      · exact hsoundLeft entry hmem
      · exact hsoundRight entry hmem

/-! ## Places -/

/-- What a filter keeps stands in the list in the same order. -/
theorem exists_embedding_filterMap {α β : Type} (f : α → Option β) (list : List α) :
    ∃ place : Nat ↪o Nat, ∀ i kept, (list.filterMap f)[i]? = some kept →
      ∃ found, list[place i]? = some found ∧ f found = some kept := by
  have hsublist : ((list.filterMap f).map some).Sublist (list.map f) := by
    induction list with
    | nil => exact List.Sublist.refl _
    | cons first list ih =>
      cases hfirst : f first with
      | none =>
        rw [List.filterMap_cons_none hfirst, List.map_cons]
        exact ih.cons _
      | some kept =>
        rw [List.filterMap_cons_some hfirst, List.map_cons, List.map_cons, hfirst]
        exact ih.cons_cons _
  obtain ⟨place, hplace⟩ := List.sublist_iff_exists_orderEmbedding_getElem?_eq.1 hsublist
  refine ⟨place, ?_⟩
  intro i kept hkept
  have hi := hplace i
  rw [List.getElem?_map, List.getElem?_map, hkept, Option.map_some, eq_comm,
    Option.map_eq_some_iff] at hi
  exact hi

/-- An entry states an item of one kind. -/
theorem Digest.textOf?_unique {first second : Kind} {entry : Entry} {text other : String}
    (hfirst : Digest.textOf? first entry = some text)
    (hsecond : Digest.textOf? second entry = some other) : first = second := by
  obtain ⟨line, item⟩ := entry
  cases item with
  | none => cases hfirst
  | some item =>
    have hkind {kind : Kind} {text : String}
        (h : Digest.textOf? kind ⟨line, some item⟩ = some text) : item.kind = kind := by
      simp only [Digest.textOf?] at h
      split at h
      · assumption
      · cases h
    exact (hkind hfirst).symm.trans (hkind hsecond)

/-- The texts of sound entries are placed where the entries stand. -/
theorem exists_placed_ofEntries {entries : List Entry} (h : ∀ entry ∈ entries, entry.Sound) :
    ∃ place, Placed (Digest.ofEntries entries) place := by
  choose place hplace using fun kind =>
    exists_embedding_filterMap (Digest.textOf? kind) entries
  have hentry (kind : Kind) (i : Fin ((Digest.ofEntries entries).bucket kind).length) :
      ∃ entry, entries[place kind i]? = some entry ∧
        Digest.textOf? kind entry = some (((Digest.ofEntries entries).bucket kind).get i) := by
    apply hplace kind i
    rw [← Digest.bucket_ofEntries]
    exact List.getElem?_eq_getElem i.isLt
  have hline (kind : Kind) (i : Fin ((Digest.ofEntries entries).bucket kind).length)
      (entry : Entry) (hfound : entries[place kind i]? = some entry) :
      (Digest.ofEntries entries).lines[place kind i]? = some entry.line := by
    have hmap : (entries.map Entry.line)[place kind i]? = some entry.line := by
      rw [List.getElem?_map, hfound, Option.map_some]
    exact hmap
  have hlength (kind : Kind) (i : Fin ((Digest.ofEntries entries).bucket kind).length) :
      place kind i < (Digest.ofEntries entries).lines.length := by
    obtain ⟨entry, hfound, -⟩ := hentry kind i
    exact (List.getElem?_eq_some_iff.1 (hline kind i entry hfound)).1
  refine ⟨fun kind i => ⟨place kind i, hlength kind i⟩, ?_, ?_, ?_⟩
  · intro kind i j hlt
    exact (place kind).strictMono hlt
  · intro kind i
    obtain ⟨entry, hfound, htext⟩ := hentry kind i
    obtain ⟨_, heq⟩ := List.getElem?_eq_some_iff.1 (hline kind i entry hfound)
    have hremains := (h entry (List.mem_of_getElem? hfound)).remains kind _ htext
    rw [List.get_eq_getElem, heq]
    exact hremains
  · intro kind other hne i j hsame
    obtain ⟨entry, hfound, htext⟩ := hentry kind i
    obtain ⟨entry', hfound', htext'⟩ := hentry other j
    rw [Fin.mk.injEq] at hsame
    rw [← hsame, hfound] at hfound'
    cases hfound'
    exact hne (Digest.textOf?_unique htext htext')

/-- In every digest, however it was made, each text of a kind is what remains of the line at
its place after a keyword of the kind; places go up within a kind and are no two kinds' in
common; and no line is blank.  So no more lines are classified than there are. -/
theorem placed_digest (making : Making) :
    (∃ place, Placed making.digest place) ∧
      (∀ line ∈ making.digest.lines, allBlank line.toList = false) ∧
      making.digest.classified ≤ making.digest.lines.length := by
  obtain ⟨entries, hdigest, hsound⟩ := exists_entries making
  rw [hdigest]
  refine ⟨exists_placed_ofEntries hsound, ?_, ?_⟩
  · intro line hmem
    obtain ⟨entry, hentry, rfl⟩ := List.mem_map.1 hmem
    exact (hsound entry hentry).notBlank
  · calc (Digest.ofEntries entries).classified
        = (entries.filter fun entry => entry.item?.isSome).length :=
          Digest.classified_ofEntries entries
      _ ≤ entries.length := List.length_filter_le _ _
      _ = (Digest.ofEntries entries).lines.length := (List.length_map Entry.line).symm

end FeatureDigest.Gherkin
