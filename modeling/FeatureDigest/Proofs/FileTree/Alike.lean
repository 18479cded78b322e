import FeatureDigest.Proofs.FileTree.Following
import FeatureDigest.Proofs.FileTree.Preorder

/-!
# Trees that are alike

Two trees are alike when they differ in the bytes of files only.  Nothing that is asked of
a path tells them apart, but reading it: it leads to the same place in both, or fails for the
same cause (`Alike.find`), and folders have the same listing (`Alike.list`).  Writing to a
file that is there gives a tree that is alike (`alike_put`).
-/

set_option autoImplicit false

namespace FeatureDigest

/-- What a node is, without the bytes of a file and without what a folder holds. -/
inductive Outline
  | file
  | folder
  | link (target : Path)
  deriving DecidableEq, Repr

/-- The outline of a node. -/
def Node.outline : Node → Outline
  | .file _ => .file
  | .folder _ => .folder
  | .link target => .link target

/-- The bytes of a file. -/
def Node.content? : Node → Option ByteArray
  | .file content => some content
  | _ => none

/-- The kind of the nodes of an outline. -/
def Outline.kind : Outline → Node.Kind
  | .file => .file
  | .folder => .folder
  | .link _ => .link

theorem Node.kind_outline (node : Node) : node.outline.kind = node.kind := by
  cases node <;> rfl

theorem Node.exists_file {other : Node} {content : ByteArray}
    (h : other.outline = (Node.file content).outline) : ∃ bytes, other = .file bytes := by
  cases other with
  | file bytes => exact ⟨bytes, rfl⟩
  | folder entries => cases h
  | link target => cases h

theorem Node.exists_folder {other : Node} {entries : Entries}
    (h : other.outline = (Node.folder entries).outline) : ∃ others, other = .folder others := by
  cases other with
  | file content => cases h
  | folder others => exact ⟨others, rfl⟩
  | link target => cases h

theorem Node.eq_link {other : Node} {target : Path}
    (h : other.outline = (Node.link target).outline) : other = .link target := by
  cases other <;> cases h
  rfl

theorem Node.kind_eq_of_outline {first second : Node} (h : first.outline = second.outline) :
    first.kind = second.kind := by
  rw [← first.kind_outline, h, second.kind_outline]

/-- Of a node only the file at a place is changed when another file is put there. -/
theorem Node.at?_put_file {node : Node} {place : Place} {held : ByteArray}
    (h : node.at? place = some (.file held)) (content : ByteArray) (other : Place) :
    ((node.put place (.file content)).at? other).map outline = (node.at? other).map outline ∧
      (other ≠ place →
        ((node.put place (.file content)).at? other).bind content?
          = (node.at? other).bind content?) := by
  induction place generalizing node other with
  | nil =>
    cases h
    cases other with
    | nil => exact ⟨rfl, fun hne => absurd rfl hne⟩
    | cons name other => exact ⟨rfl, fun _ => rfl⟩
  | cons name place ih =>
    rw [at?] at h
    split at h
    · rename_i child hchild
      cases node with
      | file bytes => cases hchild
      | link target => cases hchild
      | folder entries =>
        rw [put, hchild, Option.getD_some]
        cases other with
        | nil => exact ⟨rfl, fun _ => rfl⟩
        | cons second other =>
          rw [at?, at?, Node.entries, Entries.find?_insert]
          by_cases heq : name = second
          · subst heq
            have hrest := ih h other
            rw [if_pos rfl, hchild]
            exact ⟨hrest.1, fun hne => hrest.2 fun hother => hne (by rw [hother])⟩
          · rw [if_neg heq]
            exact ⟨rfl, fun _ => rfl⟩
    · cases h

namespace Entries

theorem mem_listing_iff {name : FileName} {kind : Node.Kind} {entries : Entries} :
    (name, kind) ∈ listing entries ↔ (find? name entries).map Node.kind = some kind := by
  rw [listing_eq, List.mem_map, Option.map_eq_some_iff]
  constructor
  · rintro ⟨⟨held, node⟩, hmem, heq⟩
    cases heq
    exact ⟨node, mem_sorted_iff.1 hmem, rfl⟩
  · rintro ⟨node, hnode, rfl⟩
    exact ⟨(name, node), mem_sorted_iff.2 hnode, rfl⟩

theorem pairwise_listing (entries : Entries) :
    (listing entries).Pairwise fun first second => first.1 < second.1 := pairwise_sorted _

/-- Names and kinds in the order of the names are known by their members. -/
theorem eq_of_mem_iff {first second : List (FileName × Node.Kind)}
    (hfirst : first.Pairwise fun a b => a.1 < b.1)
    (hsecond : second.Pairwise fun a b => a.1 < b.1)
    (h : ∀ name kind, (name, kind) ∈ first ↔ (name, kind) ∈ second) : first = second := by
  have hnodup {held : List (FileName × Node.Kind)}
      (hheld : held.Pairwise fun a b => a.1 < b.1) : held.Nodup := by
    apply hheld.imp
    intro one other hlt heq
    exact FileName.lt_irrefl _ (heq ▸ hlt)
  have hperm : first.Perm second := by
    apply (List.perm_ext_iff_of_nodup (hnodup hfirst) (hnodup hsecond)).2
    rintro ⟨name, kind⟩
    exact h name kind
  have hasymm : ∀ one other : FileName × Node.Kind, one ∈ first → other ∈ second →
      one.1 < other.1 → other.1 < one.1 → one = other := by
    intro one other _ _ hlt hgt
    exact absurd (FileName.lt_trans hlt hgt) (FileName.lt_irrefl _)
  exact hperm.eq_of_pairwise hasymm hfirst hsecond

/-- What is listed of entries depends on their names and outlines only. -/
theorem listing_congr {entries others : Entries}
    (h : ∀ name, (find? name entries).map Node.outline
      = (find? name others).map Node.outline) : listing entries = listing others := by
  have hkind (name : FileName) :
      (find? name entries).map Node.kind = (find? name others).map Node.kind := by
    have hname := congrArg (Option.map Outline.kind) (h name)
    simpa [Function.comp_def, Node.kind_outline] using hname
  apply eq_of_mem_iff (pairwise_listing entries) (pairwise_listing others)
  intro name kind
  rw [mem_listing_iff, mem_listing_iff, hkind]

end Entries

namespace FileTree

/-- Two trees have the same current folder, and at every place both have nothing or nodes of
the same outline. -/
structure Alike (first second : FileTree) : Prop where
  here : first.here = second.here
  outline : ∀ place, (first.at? place).map Node.outline = (second.at? place).map Node.outline

namespace Alike

theorem refl (tree : FileTree) : tree.Alike tree := ⟨rfl, fun _ => rfl⟩

theorem trans {first second third : FileTree} (hfirst : first.Alike second)
    (hsecond : second.Alike third) : first.Alike third :=
  ⟨hfirst.here.trans hsecond.here,
    fun place => (hfirst.outline place).trans (hsecond.outline place)⟩

variable {first second : FileTree}

theorem at?_none (h : first.Alike second) {place : Place} (hat : first.at? place = none) :
    second.at? place = none := by
  have houtline := h.outline place
  rw [hat, Option.map_none] at houtline
  exact Option.map_eq_none_iff.1 houtline.symm

theorem at?_some (h : first.Alike second) {place : Place} {node : Node}
    (hat : first.at? place = some node) :
    ∃ other, second.at? place = some other ∧ other.outline = node.outline := by
  have houtline := h.outline place
  rw [hat, Option.map_some] at houtline
  exact Option.map_eq_some_iff.1 houtline.symm

/-- In both trees a folder has entries of the same names and outlines. -/
theorem find? (h : first.Alike second) {place : Place} {entries others : Entries}
    (hfirst : first.at? place = some (.folder entries))
    (hsecond : second.at? place = some (.folder others)) (name : FileName) :
    (Entries.find? name entries).map Node.outline
      = (Entries.find? name others).map Node.outline := by
  have houtline := h.outline (place ++ [name])
  rwa [at?_child hfirst, at?_child hsecond] at houtline

/-! ## Following -/

theorem advance (h : first.Alike second) (aim : Aim) (place : Place) (pieces : List Piece) :
    first.advance aim place pieces = second.advance aim place pieces := by
  induction pieces generalizing place with
  | nil => rw [advance_nil, advance_nil]
  | cons piece pieces ih =>
    rw [advance_cons, advance_cons]
    cases hfirst : first.at? place with
    | none => rw [h.at?_none hfirst]
    | some node =>
      obtain ⟨other, hsecond, houtline⟩ := h.at?_some hfirst
      rw [hsecond]
      cases node with
      | file content =>
        obtain ⟨bytes, rfl⟩ := Node.exists_file houtline
        rfl
      | link target => rw [Node.eq_link houtline]
      | folder entries =>
        obtain ⟨others, rfl⟩ := Node.exists_folder houtline
        have hchild := h.find? hfirst hsecond
        simp only [ih]
        cases FileName.ofPiece? piece with
        | none => rfl
        | some name =>
          have hname := hchild name
          cases hentry : Entries.find? name entries with
          | none =>
            rw [hentry, Option.map_none] at hname
            simp only [hentry, Option.map_eq_none_iff.1 hname.symm]
          | some child =>
            rw [hentry, Option.map_some] at hname
            obtain ⟨twin, htwin, heq⟩ := Option.map_eq_some_iff.1 hname.symm
            simp only [hentry, htwin]
            cases child <;> cases twin <;> cases heq <;> rfl

theorem follow (h : first.Alike second) (aim : Aim) (links : Nat) (place : Place)
    (pieces : List Piece) :
    first.follow aim links place pieces = second.follow aim links place pieces := by
  induction links generalizing place pieces with
  | zero => rw [FileTree.follow, FileTree.follow, h.advance]
  | succ links ih =>
    rw [FileTree.follow, FileTree.follow, h.advance]
    simp only [ih]

theorem resolve (h : first.Alike second) (aim : Aim) (path : Path) :
    first.resolve aim path = second.resolve aim path := by
  have houtset : first.outset aim path = second.outset aim path := by
    rw [outset, outset, h.here]
  rw [FileTree.resolve, FileTree.resolve, houtset]
  simp only [h.follow]

/-- A path leads to the same place in both trees and to nodes of the same outline, or fails
for the same cause. -/
theorem find (h : first.Alike second) (aim : Aim) (path : Path) :
    (∃ fault, first.find aim path = .error fault ∧ second.find aim path = .error fault) ∨
      ∃ place node other, first.find aim path = .ok (place, node) ∧
        second.find aim path = .ok (place, other) ∧ other.outline = node.outline := by
  rw [FileTree.find, FileTree.find, h.resolve]
  cases second.resolve aim path with
  | error fault => exact Or.inl ⟨fault, rfl, rfl⟩
  | ok place =>
    dsimp only
    cases hfirst : first.at? place with
    | none =>
      rw [h.at?_none hfirst]
      exact Or.inl ⟨.notFound, rfl, rfl⟩
    | some node =>
      obtain ⟨other, hsecond, houtline⟩ := h.at?_some hfirst
      rw [hsecond]
      exact Or.inr ⟨place, node, other, rfl, rfl, houtline⟩

/-! ## Access -/

/-- What a path leads to has the same kind in both trees. -/
theorem kind (h : first.Alike second) (aim : Aim) (path : Path) :
    ((first.find aim path).map fun found => found.2.kind)
      = (second.find aim path).map fun found => found.2.kind := by
  rcases h.find aim path with
    ⟨fault, hfirst, hsecond⟩ | ⟨place, node, other, hfirst, hsecond, houtline⟩
  · rw [hfirst, hsecond]
  · rw [hfirst, hsecond]
    exact congrArg Except.ok (Node.kind_eq_of_outline houtline).symm

theorem entryKind (h : first.Alike second) (path : Path) :
    first.entryKind path = second.entryKind path := h.kind .entry path

theorem targetKind (h : first.Alike second) (path : Path) :
    first.targetKind path = second.targetKind path := h.kind .target path

theorem reaches (h : first.Alike second) (path : Path) :
    first.reaches path = second.reaches path := by
  rw [FileTree.reaches, FileTree.reaches, h.targetKind]

theorem isFile (h : first.Alike second) (path : Path) :
    first.isFile path = second.isFile path := by
  rw [FileTree.isFile, FileTree.isFile, h.targetKind]

theorem canonical (h : first.Alike second) (path : Path) :
    first.canonical path = second.canonical path := by
  unfold FileTree.canonical
  rcases h.find .canonical path with
    ⟨fault, hfirst, hsecond⟩ | ⟨place, node, other, hfirst, hsecond, _⟩
  · rw [hfirst, hsecond]
  · rw [hfirst, hsecond]
    rfl

theorem canonicalOrAbsolute (h : first.Alike second) (path : Path) :
    first.canonicalOrAbsolute path = second.canonicalOrAbsolute path := by
  have habsolute : first.absolute path = second.absolute path := by
    rw [absolute, absolute, h.here]
  rw [FileTree.canonicalOrAbsolute, FileTree.canonicalOrAbsolute, h.canonical, habsolute]

/-- A folder has the same listing in both trees. -/
theorem list (h : first.Alike second) (path : Path) : first.list path = second.list path := by
  unfold FileTree.list
  rcases h.find .target path with
    ⟨fault, hfirst, hsecond⟩ | ⟨place, node, other, hfirst, hsecond, houtline⟩
  · rw [hfirst, hsecond]
  · rw [hfirst, hsecond]
    cases node with
    | file content =>
      obtain ⟨bytes, rfl⟩ := Node.exists_file houtline
      rfl
    | link target =>
      rw [Node.eq_link houtline]
    | folder entries =>
      obtain ⟨others, rfl⟩ := Node.exists_folder houtline
      have hat := (find_eq_ok_iff.1 hfirst).2.2
      have hother := (find_eq_ok_iff.1 hsecond).2.2
      exact congrArg Except.ok (Entries.listing_congr (h.find? hat hother))

end Alike

/-! ## Contents -/

/-- The bytes of the file at a place, if there is one. -/
def content? (tree : FileTree) (place : Place) : Option ByteArray :=
  (tree.at? place).bind Node.content?

theorem content?_eq_some_iff {tree : FileTree} {place : Place} {content : ByteArray} :
    tree.content? place = some content ↔ tree.at? place = some (.file content) := by
  rw [content?, Option.bind_eq_some_iff]
  constructor
  · rintro ⟨node, hat, hnode⟩
    cases node with
    | file held =>
      cases hnode
      exact hat
    | folder entries => cases hnode
    | link target => cases hnode
  · intro hat
    exact ⟨.file content, hat, rfl⟩

theorem at?_put_eq (tree : FileTree) {place : Place} (h : place ≠ []) (node : Node)
    (other : Place) : (tree.put place node).at? other = (tree.top.put place node).at? other := by
  obtain ⟨name, rest, rfl⟩ := List.exists_cons_of_ne_nil h
  rfl

/-- The top is no file. -/
theorem ne_nil_of_content? {tree : FileTree} {place : Place} {content : ByteArray}
    (h : tree.content? place = some content) : place ≠ [] := by
  rintro rfl
  cases h

/-- A tree is alike after a file that is there was written. -/
theorem alike_put {tree : FileTree} {place : Place} {held : ByteArray}
    (h : tree.content? place = some held) (content : ByteArray) :
    tree.Alike (tree.put place (.file content)) := by
  refine ⟨rfl, ?_⟩
  intro other
  rw [tree.at?_put_eq (ne_nil_of_content? h)]
  exact (Node.at?_put_file (content?_eq_some_iff.1 h) content other).1.symm

/-- No other file is written. -/
theorem content?_put_of_ne {tree : FileTree} {place other : Place} {held : ByteArray}
    (h : tree.content? place = some held) (hne : other ≠ place) (content : ByteArray) :
    (tree.put place (.file content)).content? other = tree.content? other := by
  rw [content?, tree.at?_put_eq (ne_nil_of_content? h)]
  exact (Node.at?_put_file (content?_eq_some_iff.1 h) content other).2 hne

theorem content?_put {tree : FileTree} {place : Place} {held : ByteArray}
    (h : tree.content? place = some held) (content : ByteArray) :
    (tree.put place (.file content)).content? place = some content :=
  content?_eq_some_iff.2 (tree.at?_put (ne_nil_of_content? h) _)

end FileTree

end FeatureDigest
