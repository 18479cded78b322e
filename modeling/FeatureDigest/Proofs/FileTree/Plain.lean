import FeatureDigest.Proofs.FileTree.Alike
import FeatureDigest.Proofs.FileTree.Canonical
import FeatureDigest.Proofs.Path.Components
import FeatureDigest.Proofs.Text.Plain

/-!
# File trees without escape characters

Where no file name has an escape character, no path has one that is made of names and of other
paths without: a path that was joined (`plain_join`), that is relative to another one
(`plain_relativeTo`), or that was looked up in the tree (`FileTree.Plain.canonical`,
`FileTree.Plain.canonicalOrAbsolute`).
-/

set_option autoImplicit false

namespace FeatureDigest

open Text (escape)

/-! ## Paths -/

namespace Path

variable {path : Path}

theorem plain_ofSpelling (spelling : Spelling)
    (h : ∀ piece ∈ spelling.pieces, escape ∉ piece) :
    Text.Plain (ofSpelling spelling).text := by
  have hpieces : escape ∉ joinSlash spelling.pieces := by
    intro hmem
    rcases mem_joinSlash hmem with hslash | ⟨piece, hpiece, hc⟩
    · exact absurd hslash (by decide)
    · exact h piece hpiece hc
  rw [ofSpelling, Text.plain_ofList, Spelling.text]
  split
  · rw [List.mem_cons, not_or]
    exact ⟨by decide, hpieces⟩
  · exact hpieces

theorem plain_relativeTo (h : Text.Plain path.text) (base : Path) :
    Text.Plain (path.relativeTo base).text := by
  rw [relativeTo, relativeTo?]
  split
  · apply plain_ofSpelling
    intro piece hpiece hc
    exact h (mem_text_of_mem_pieces (Spelling.mem_of_mem_after hpiece) hc)
  · exact h

theorem plain_join (h : Text.Plain path.text) {child : Path} (hchild : Text.Plain child.text) :
    Text.Plain (path.join child).text := by
  unfold join
  split
  · exact hchild
  · split
    · exact h.append hchild
    · exact (h.append (by decide)).append hchild

theorem plain_ofPlace {place : Place} (h : ∀ name ∈ place, escape ∉ name.piece) :
    Text.Plain (ofPlace place).text := by
  apply plain_ofSpelling ⟨true, place.map FileName.piece⟩
  intro piece hpiece
  obtain ⟨name, hname, rfl⟩ := List.mem_map.1 hpiece
  exact h name hname

end Path

/-! ## Trees -/

theorem AccessFault.plain_message (fault : AccessFault) : Text.Plain fault.message := by
  cases fault <;> exact Text.plain_ofList.2 (by decide)

namespace FileTree

variable {tree : FileTree} {path : Path}

/-- A text that was read is that of a file. -/
theorem exists_of_readText {text : String} (h : tree.readText path = .ok text) :
    ∃ place content, tree.at? place = some (.file content) ∧
      String.fromUTF8? content = some text := by
  unfold FileTree.readText at h
  split at h
  · cases h
  · rename_i place content hfind
    split at h
    · rename_i found hfound
      cases h
      exact ⟨place, content, (find_eq_ok_iff.1 hfind).2.2, hfound⟩
    · cases h
  · cases h

/-- No name has an escape character, and no text of a file has one.  What links hold plays no
part: it is followed, but shown nowhere. -/
structure Plain (tree : FileTree) : Prop where
  here : ∀ name ∈ tree.here, escape ∉ name.piece
  name : ∀ place node, tree.at? place = some node → ∀ name ∈ place, escape ∉ name.piece
  content : ∀ place content text, tree.at? place = some (.file content) →
    String.fromUTF8? content = some text → Text.Plain text

namespace Plain

theorem canonical (h : tree.Plain) {found : Path} (hfound : tree.canonical path = .ok found) :
    Text.Plain found.text := by
  rw [FileTree.canonical] at hfound
  cases hfind : tree.find .canonical path with
  | error fault =>
    rw [hfind] at hfound
    cases hfound
  | ok reached =>
    rw [hfind] at hfound
    cases hfound
    exact Path.plain_ofPlace (h.name _ _ (find_eq_ok_iff.1 hfind).2.2)

theorem canonicalOrAbsolute (h : tree.Plain) (hpath : Text.Plain path.text) :
    Text.Plain (tree.canonicalOrAbsolute path).text := by
  rw [FileTree.canonicalOrAbsolute]
  cases hfound : tree.canonical path with
  | error fault =>
    intro hmem
    rcases mem_text_absolute hmem with hslash | ⟨name, hname, hc⟩ | hc
    · exact absurd hslash (by decide)
    · exact h.here name hname hc
    · exact hpath hc
  | ok found => exact h.canonical hfound

theorem readText (h : tree.Plain) {text : String} (hread : tree.readText path = .ok text) :
    Text.Plain text := by
  obtain ⟨place, content, hat, htext⟩ := exists_of_readText hread
  exact h.content place content text hat htext

theorem textOrEmpty (h : tree.Plain) (path : Path) : Text.Plain (tree.textOrEmpty path) := by
  rw [FileTree.textOrEmpty]
  cases hread : tree.readText path with
  | error fault => exact List.not_mem_nil
  | ok text => exact h.readText hread

theorem list (h : tree.Plain) {entries : List (FileName × Node.Kind)}
    (hlist : tree.list path = .ok entries) : ∀ entry ∈ entries, escape ∉ entry.1.piece := by
  unfold FileTree.list at hlist
  split at hlist
  · cases hlist
  · rename_i place held hfind
    cases hlist
    rintro ⟨name, kind⟩ hentry
    obtain ⟨node, hnode, _⟩ := Option.map_eq_some_iff.1 (Entries.mem_listing_iff.1 hentry)
    have hat : tree.at? (place ++ [name]) = some node := by
      rw [at?_append, (find_eq_ok_iff.1 hfind).2.2]
      simp [Node.at?, Node.entries, hnode]
    exact h.name _ _ hat name (by simp)
  · cases hlist

end Plain

end FileTree

end FeatureDigest
