import Mathlib.Algebra.GroupWithZero.Nat
import FeatureDigest.Proofs.FileTree.NameOrder
import FeatureDigest.FileTree.Node

/-!
# Places below a node

The places of a node and of all below it, each before those below it and the entries of a
folder in the order of their names.  These are the places that have a node
(`mem_places_iff`), each of them once and in the order of the bytes of their names
(`pairwise_places`).
-/

set_option autoImplicit false

namespace FeatureDigest

/-! ## Sorted entries -/

namespace Entries

theorem mem_insertSorted_iff {α : Type} {entry other : FileName × α}
    {entries : List (FileName × α)} (h : entries.Pairwise fun a b => a.1 < b.1) :
    other ∈ insertSorted entry entries
      ↔ other = entry ∨ (other ∈ entries ∧ other.1 ≠ entry.1) := by
  induction entries with
  | nil => simp [insertSorted]
  | cons first rest ih =>
    rw [List.pairwise_cons] at h
    simp only [insertSorted]
    split
    · rename_i hlt
      have hne (held : FileName × α) (hmem : held ∈ first :: rest) : held.1 ≠ entry.1 := by
        intro heq
        rcases List.mem_cons.1 hmem with rfl | hmem
        · exact FileName.lt_irrefl _ (heq ▸ hlt)
        · exact FileName.lt_irrefl _ (heq ▸ FileName.lt_trans hlt (h.1 held hmem))
      rw [List.mem_cons]
      constructor
      · rintro (rfl | hmem)
        · exact Or.inl rfl
        · exact Or.inr ⟨hmem, hne other hmem⟩
      · rintro (rfl | ⟨hmem, _⟩)
        · exact Or.inl rfl
        · exact Or.inr hmem
    · split
      · rename_i heq
        have hne (held : FileName × α) (hmem : held ∈ rest) : held.1 ≠ entry.1 := by
          intro hheld
          have hlt := h.1 held hmem
          rw [hheld, heq] at hlt
          exact FileName.lt_irrefl _ hlt
        rw [List.mem_cons, List.mem_cons]
        constructor
        · rintro (rfl | hmem)
          · exact Or.inl rfl
          · exact Or.inr ⟨Or.inr hmem, hne other hmem⟩
        · rintro (rfl | ⟨rfl | hmem, hother⟩)
          · exact Or.inl rfl
          · exact absurd heq.symm hother
          · exact Or.inr hmem
      · rename_i hne
        rw [List.mem_cons, ih h.2, List.mem_cons]
        constructor
        · rintro (rfl | rfl | ⟨hmem, hother⟩)
          · exact Or.inr ⟨Or.inl rfl, fun e => hne e.symm⟩
          · exact Or.inl rfl
          · exact Or.inr ⟨Or.inr hmem, hother⟩
        · rintro (rfl | ⟨rfl | hmem, hother⟩)
          · exact Or.inr (Or.inl rfl)
          · exact Or.inl rfl
          · exact Or.inr (Or.inr ⟨hmem, hother⟩)

theorem mem_of_find? {name : FileName} {node : Node} {entries : Entries}
    (h : find? name entries = some node) : (name, node) ∈ entries := by
  induction entries with
  | nil => cases h
  | cons entry entries ih =>
    obtain ⟨other, held⟩ := entry
    rw [find?] at h
    split at h
    · rename_i heq
      cases h
      rw [heq]
      exact List.mem_cons_self
    · exact List.mem_cons_of_mem (other, held) (ih h)

/-- Sorting keeps the entry that a name is looked up to. -/
theorem mem_sorted_iff {name : FileName} {node : Node} {entries : Entries} :
    (name, node) ∈ sorted entries ↔ find? name entries = some node := by
  induction entries with
  | nil => simp [sorted]
  | cons entry rest ih =>
    obtain ⟨held, kept⟩ := entry
    rw [sorted, mem_insertSorted_iff (pairwise_sorted rest), ih, find?]
    split
    · rename_i heq
      simp [heq, eq_comm]
    · rename_i hne
      simp [Ne.symm hne]

theorem insertSorted_map {α β : Type} (f : α → β) (entry : FileName × α)
    (entries : List (FileName × α)) :
    insertSorted (entry.1, f entry.2) (entries.map fun held => (held.1, f held.2))
      = (insertSorted entry entries).map fun held => (held.1, f held.2) := by
  induction entries with
  | nil => rfl
  | cons first rest ih =>
    simp only [insertSorted, List.map_cons]
    split
    · rfl
    · split
      · rfl
      · rw [ih, List.map_cons]

/-- What the names stand for plays no part in sorting. -/
theorem sorted_map {α β : Type} (f : α → β) (entries : List (FileName × α)) :
    sorted (entries.map fun entry => (entry.1, f entry.2))
      = (sorted entries).map fun entry => (entry.1, f entry.2) := by
  induction entries with
  | nil => rfl
  | cons entry rest ih => rw [List.map_cons, sorted, ih, insertSorted_map, sorted]

theorem listing_eq (entries : Entries) :
    listing entries = (sorted entries).map fun entry => (entry.1, entry.2.kind) :=
  sorted_map Node.kind entries

/-! ## Sizes -/

theorem size_le_sizeSum {name : FileName} {node : Node} {entries : Entries}
    (h : find? name entries = some node) : node.size ≤ sizeSum entries := by
  induction entries with
  | nil => simp at h
  | cons entry rest ih =>
    obtain ⟨held, kept⟩ := entry
    rw [find?] at h
    rw [sizeSum, entrySize]
    split at h
    · cases h
      omega
    · have := ih h
      omega

theorem sum_insertSorted_le (entry : FileName × Node) (entries : Entries) :
    ((insertSorted entry entries).map fun held => held.2.size).sum
      ≤ entry.2.size + (entries.map fun held => held.2.size).sum := by
  induction entries with
  | nil => simp [insertSorted]
  | cons first rest ih =>
    simp only [insertSorted]
    split
    · simp
    · split
      · simp only [List.map_cons, List.sum_cons]
        omega
      · simp only [List.map_cons, List.sum_cons]
        omega

theorem sum_sorted_le (entries : Entries) :
    ((sorted entries).map fun entry => entry.2.size).sum ≤ sizeSum entries := by
  induction entries with
  | nil => simp [sorted, sizeSum]
  | cons entry rest ih =>
    obtain ⟨name, node⟩ := entry
    have hinsert := sum_insertSorted_le (name, node) (sorted rest)
    rw [sorted, sizeSum, entrySize]
    simp only at hinsert
    omega

end Entries

namespace Node

theorem size_pos (node : Node) : 0 < node.size := by
  cases node with
  | file content => rw [size]; omega
  | folder entries => rw [size]; omega
  | link target => rw [size]; omega

theorem size_lt_of_find? {name : FileName} {child : Node} {entries : Entries}
    (h : Entries.find? name entries = some child) :
    child.size < (Node.folder entries).size := by
  have hle := Entries.size_le_sizeSum h
  rw [size]
  omega

theorem size_le_of_at? {node below : Node} {names : Place}
    (h : node.at? names = some below) : below.size ≤ node.size := by
  induction names generalizing node with
  | nil =>
    cases h
    exact Nat.le_refl _
  | cons name names ih =>
    rw [at?] at h
    split at h
    · rename_i child hchild
      cases node with
      | folder entries =>
        have hlt : child.size < (Node.folder entries).size := size_lt_of_find? hchild
        have hle := ih h
        omega
      | file content => cases hchild
      | link target => cases hchild
    · cases h

/-- What holds of files and links, and of a folder when it holds of its entries, holds of
every node. -/
theorem induction {motive : Node → Prop} (file : ∀ content, motive (.file content))
    (link : ∀ target, motive (.link target))
    (folder : ∀ entries : Entries,
      (∀ name child, Entries.find? name entries = some child → motive child) →
        motive (.folder entries)) (node : Node) : motive node := by
  induction hsize : node.size using Nat.strongRecOn generalizing node with
  | ind size ih =>
    cases node with
    | file content => exact file content
    | link target => exact link target
    | folder entries =>
      apply folder entries
      intro name child hchild
      exact ih child.size (hsize ▸ size_lt_of_find? hchild) child rfl

end Node

/-! ## Places -/

mutual

/-- The places below a node that have a node: its own, and for each entry in the order of
the names those below the entry. -/
def Node.places : Node → List Place
  | .file _ => [[]]
  | .folder entries =>
    [] :: (Entries.sorted (Entries.placesOfEach entries)).flatMap fun entry =>
      entry.2.map fun names => entry.1 :: names
  | .link _ => [[]]

/-- The places below each entry. -/
def Entries.placesOfEach : List (FileName × Node) → List (FileName × List Place)
  | [] => []
  | entry :: rest => Entries.placesOf entry :: Entries.placesOfEach rest

/-- The places below an entry. -/
def Entries.placesOf : FileName × Node → FileName × List Place
  | (name, node) => (name, node.places)

end

theorem Entries.placesOfEach_eq (entries : Entries) :
    Entries.placesOfEach entries = entries.map fun entry => (entry.1, entry.2.places) := by
  induction entries with
  | nil => rfl
  | cons entry rest ih => rw [Entries.placesOfEach, ih, List.map_cons, Entries.placesOf]

/-- One place comes before another one: where they first differ it has the name with the
smaller bytes, or ends. -/
def Place.Before (first second : Place) : Prop :=
  List.Lex (fun a b : FileName => a.bytes < b.bytes) first second

namespace Node

theorem places_folder (entries : Entries) :
    (Node.folder entries).places =
      [] :: (Entries.sorted entries).flatMap fun entry =>
        entry.2.places.map fun names => entry.1 :: names := by
  rw [places, Entries.placesOfEach_eq, Entries.sorted_map, List.flatMap_map]

theorem mem_places_iff {node : Node} {names : Place} :
    names ∈ node.places ↔ (node.at? names).isSome := by
  induction names generalizing node with
  | nil => cases node <;> simp [places]
  | cons name names ih =>
    cases node with
    | file content => simp [places, at?, entries]
    | link target => simp [places, at?, entries]
    | folder entries =>
      rw [places_folder, List.mem_cons, List.mem_flatMap, at?]
      constructor
      · rintro (h | ⟨⟨held, child⟩, hentry, hnames⟩)
        · cases h
        · obtain ⟨rest, hrest, heq⟩ := List.mem_map.1 hnames
          cases heq
          have hchild : Entries.find? held (Node.folder entries).entries = some child :=
            Entries.mem_sorted_iff.1 hentry
          rw [hchild]
          exact ih.1 hrest
      · intro h
        split at h
        · rename_i child hchild
          exact Or.inr ⟨(name, child), Entries.mem_sorted_iff.2 hchild,
            List.mem_map.2 ⟨names, ih.2 h, rfl⟩⟩
        · cases h

/-- Places are listed in strictly ascending order. -/
theorem pairwise_places (node : Node) : node.places.Pairwise Place.Before := by
  induction node using Node.induction with
  | file content => exact List.pairwise_singleton ..
  | link target => exact List.pairwise_singleton ..
  | folder entries ih =>
    rw [places_folder, List.pairwise_cons, List.pairwise_flatMap]
    refine ⟨?_, ?_, ?_⟩
    · intro names hnames
      obtain ⟨⟨name, child⟩, _, hmem⟩ := List.mem_flatMap.1 hnames
      obtain ⟨rest, _, rfl⟩ := List.mem_map.1 hmem
      exact .nil
    · rintro ⟨name, child⟩ hentry
      rw [List.pairwise_map]
      exact (ih name child (Entries.mem_sorted_iff.1 hentry)).imp fun h => .cons h
    · apply (Entries.pairwise_sorted entries).imp
      rintro ⟨name, child⟩ ⟨other, sibling⟩ hlt first hfirst second hsecond
      obtain ⟨names, _, rfl⟩ := List.mem_map.1 hfirst
      obtain ⟨rest, _, rfl⟩ := List.mem_map.1 hsecond
      exact .rel (FileName.lt_iff_bytes_lt.1 hlt)

end Node

end FeatureDigest
