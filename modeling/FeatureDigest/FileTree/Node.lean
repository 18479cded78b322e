import FeatureDigest.FileTree.Name
import FeatureDigest.Path.Basic

/-!
# Nodes of a file tree

A node is a file, a folder or a symbolic link.  The entries of a folder are found
by name, the first entry of a name counting, and are listed in the order of their
names.
-/

set_option autoImplicit false

namespace FeatureDigest

/-- A file, a folder or a symbolic link. -/
inductive Node
  | file (content : ByteArray)
  | folder (entries : List (FileName × Node))
  | link (target : Path)
  deriving Inhabited

/-- What a folder holds. -/
abbrev Entries := List (FileName × Node)

namespace Node

/-- The kinds of node. -/
inductive Kind
  | file
  | folder
  | link
  deriving DecidableEq, Repr, Inhabited

/-- The kind of a node. -/
def kind : Node → Kind
  | .file _ => .file
  | .folder _ => .folder
  | .link _ => .link

/-- The entries of a folder; other nodes have none. -/
def entries : Node → Entries
  | .folder entries => entries
  | _ => []

end Node

namespace Entries

/-- The node of a name. -/
def find? (name : FileName) : Entries → Option Node
  | [] => none
  | (other, node) :: rest => if other = name then some node else find? name rest

/-- The entries with the node of a name set, in its place or at the end. -/
def insert (name : FileName) (node : Node) : Entries → Entries
  | [] => [(name, node)]
  | (other, held) :: rest =>
    if other = name then (name, node) :: rest else (other, held) :: insert name node rest

/-- The entries of all other names. -/
def erase (name : FileName) : Entries → Entries
  | [] => []
  | (other, node) :: rest =>
    if other = name then erase name rest else (other, node) :: erase name rest

@[simp] theorem find?_nil (name : FileName) : find? name [] = none := rfl

theorem find?_insert (name other : FileName) (node : Node) (entries : Entries) :
    find? other (insert name node entries)
      = if name = other then some node else find? other entries := by
  induction entries with
  | nil => simp [insert, find?]
  | cons entry rest ih =>
    obtain ⟨held, kept⟩ := entry
    by_cases h : held = name
    · subst h
      by_cases ho : held = other <;> simp [insert, find?, ho]
    · by_cases ho : held = other
      · subst ho
        simp [insert, find?, h, Ne.symm h]
      · simp [insert, find?, h, ho, ih]

/-! ## Listing -/

/-- A list in the order of names with one more entry, in front of an entry of the
same name, which it replaces. -/
def insertSorted {α : Type} (entry : FileName × α) :
    List (FileName × α) → List (FileName × α)
  | [] => [entry]
  | first :: rest =>
    if entry.1 < first.1 then entry :: first :: rest
    else if entry.1 = first.1 then entry :: rest
    else first :: insertSorted entry rest

/-- The entries in the order of their names, the first of each name. -/
def sorted {α : Type} : List (FileName × α) → List (FileName × α)
  | [] => []
  | entry :: rest => insertSorted entry (sorted rest)

/-- The names and kinds of the entries, in the order of the names. -/
def listing (entries : Entries) : List (FileName × Node.Kind) :=
  sorted (entries.map fun entry => (entry.1, entry.2.kind))

theorem mem_insertSorted {α : Type} {entry other : FileName × α}
    {entries : List (FileName × α)} (h : other ∈ insertSorted entry entries) :
    other = entry ∨ other ∈ entries := by
  induction entries with
  | nil => simpa [insertSorted] using h
  | cons first rest ih =>
    simp only [insertSorted] at h
    split at h
    · simpa using h
    · split at h
      · rcases List.mem_cons.1 h with h | h <;> simp [h]
      · rcases List.mem_cons.1 h with h | h
        · simp [h]
        · rcases ih h with h | h <;> simp [h]

/-- Names are listed in strictly ascending order. -/
theorem pairwise_insertSorted {α : Type} (entry : FileName × α)
    {entries : List (FileName × α)} (h : entries.Pairwise fun a b => a.1 < b.1) :
    (insertSorted entry entries).Pairwise fun a b => a.1 < b.1 := by
  induction entries with
  | nil => simp [insertSorted]
  | cons first rest ih =>
    rw [List.pairwise_cons] at h
    simp only [insertSorted]
    split
    · rename_i hlt
      refine List.pairwise_cons.2 ⟨fun other hm => ?_, List.pairwise_cons.2 h⟩
      rcases List.mem_cons.1 hm with rfl | hm
      · exact hlt
      · exact FileName.lt_trans hlt (h.1 other hm)
    · rename_i hnlt
      split
      · rename_i heq
        exact List.pairwise_cons.2 ⟨fun other hm => heq ▸ h.1 other hm, h.2⟩
      · rename_i hne
        refine List.pairwise_cons.2 ⟨fun other hm => ?_, ih h.2⟩
        rcases mem_insertSorted hm with rfl | hm
        · exact FileName.lt_of_not_lt_of_ne hnlt hne
        · exact h.1 other hm

theorem pairwise_sorted {α : Type} (entries : List (FileName × α)) :
    (sorted entries).Pairwise fun a b => a.1 < b.1 := by
  induction entries with
  | nil => exact .nil
  | cons entry rest ih => exact pairwise_insertSorted entry ih

end Entries

/-! ## Size -/

mutual

/-- The number of nodes of a node: itself and all below it. -/
def Node.size : Node → Nat
  | .file _ => 1
  | .folder entries => 1 + Entries.sizeSum entries
  | .link _ => 1

/-- The number of nodes of all entries. -/
def Entries.sizeSum : List (FileName × Node) → Nat
  | [] => 0
  | entry :: rest => Entries.entrySize entry + Entries.sizeSum rest

/-- The number of nodes of an entry. -/
def Entries.entrySize : FileName × Node → Nat
  | (_, node) => node.size

end

namespace Node

/-! ## Places -/

/-- The node that a place leads to, no link followed. -/
def at? : Node → Place → Option Node
  | node, [] => some node
  | node, name :: place =>
    match Entries.find? name node.entries with
    | some child => child.at? place
    | none => none

/-- The node with another node put at a place.  Folders are made on the way where
there are none. -/
def put : (node : Node) → Place → (content : Node) → Node
  | _, [], content => content
  | node, name :: place, content =>
    let child := (Entries.find? name node.entries).getD (.folder [])
    .folder (Entries.insert name (child.put place content) node.entries)

/-- The node without what is at a place.  The node itself can only be emptied. -/
def remove : Node → Place → Node
  | _, [] => .folder []
  | .folder entries, [name] => .folder (Entries.erase name entries)
  | .folder entries, name :: next :: place =>
    match Entries.find? name entries with
    | some child => .folder (Entries.insert name (child.remove (next :: place)) entries)
    | none => .folder entries
  | node, _ => node

@[simp] theorem at?_nil (node : Node) : node.at? [] = some node := rfl

theorem at?_append (node : Node) (first second : Place) :
    node.at? (first ++ second) = (node.at? first).bind (·.at? second) := by
  induction first generalizing node with
  | nil => rfl
  | cons name place ih =>
    simp only [List.cons_append, at?]
    split
    · exact ih _
    · rfl

/-- What was put is found. -/
@[simp] theorem at?_put (node : Node) (place : Place) (content : Node) :
    (node.put place content).at? place = some content := by
  induction place generalizing node with
  | nil => rfl
  | cons name place ih => simp [put, at?, entries, Entries.find?_insert, ih]

end Node

end FeatureDigest
