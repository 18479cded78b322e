import FeatureDigest.Proofs.FileTree.Canonical
import FeatureDigest.Proofs.Path.Components

/-!
# Spellings of folders

A path that names the folders on the way to a folder leads there, wherever fillers stand between
the names (`FileTree.advance_fillers`).  So what is joined to it leads to the same as what is
joined to any other such path of the folder (`FileTree.find_join_congr`).
-/

set_option autoImplicit false

namespace FeatureDigest

/-! ## Pieces that are no fillers -/

namespace Path

/-- The pieces of a path that are no fillers are those that its components are spelled with. -/
theorem telling_eq (path : Path) : path.telling = path.components.filterMap Component.piece? := by
  unfold telling Path.components
  generalize path.spelling = spelling
  obtain ⟨rooted, pieces⟩ := spelling
  cases rooted with
  | true =>
    rw [Spelling.components, if_pos rfl, List.filterMap_cons_none rfl,
      Component.filterMap_piece?]
  | false =>
    cases pieces with
    | nil => rfl
    | cons first pieces =>
      have hfirst : (Component.ofFirstPiece? first).toList.filterMap Component.piece?
          = [first].filter fun piece => !isFiller piece := by
        by_cases hdot : first = ['.']
        · rw [hdot]
          rfl
        · rw [Component.ofFirstPiece?_of_ne hdot, ← Component.filterMap_piece?,
            List.filterMap_cons, List.filterMap_nil]
          cases Component.ofPiece? first <;> rfl
      rw [Spelling.components, if_neg Bool.false_ne_true]
      dsimp only
      rw [List.filterMap_append, hfirst, Component.filterMap_piece?, ← List.filter_append,
        List.singleton_append]

theorem exists_piece_of_mem_text {path : Path} {c : Char} (h : c ∈ path.text.toList) :
    c = '/' ∨ ∃ piece ∈ path.spelling.pieces, c ∈ piece := by
  rw [← Spelling.text_ofText path.text.toList, Spelling.text] at h
  split at h
  · rcases List.mem_cons.1 h with hslash | hjoin
    · exact Or.inl hslash
    · exact mem_joinSlash hjoin
  · exact mem_joinSlash h

/-- A path whose pieces are names and fillers has no NUL. -/
theorem nul_not_mem_of_telling {path : Path} {names : Place} (h : path.telling = names.pieces) :
    '\x00' ∉ path.text.toList := by
  intro hnul
  rcases exists_piece_of_mem_text hnul with hslash | ⟨piece, hpiece, hmem⟩
  · exact absurd hslash (by decide)
  · cases hfiller : isFiller piece with
    | true =>
      simp only [isFiller, Bool.or_eq_true, beq_iff_eq] at hfiller
      rcases hfiller with rfl | rfl
      · cases hmem
      · exact absurd hmem (by decide)
    | false =>
      have htelling : piece ∈ path.telling := List.mem_filter.2 ⟨hpiece, by simp [hfiller]⟩
      rw [h] at htelling
      obtain ⟨name, rfl⟩ := Place.exists_name_of_mem htelling
      exact name.nul_not_mem hmem

end Path

namespace FileTree

variable {tree : FileTree}

theorem folder_of_append {place names : Place} {entries : Entries}
    (h : tree.at? (place ++ names) = some (.folder entries)) :
    ∃ above, tree.at? place = some (.folder above) := by
  induction names generalizing place with
  | nil => exact ⟨entries, by rw [List.append_nil] at h; exact h⟩
  | cons name names ih =>
    rw [List.append_cons] at h
    obtain ⟨between, hbetween⟩ := ih h
    exact folder_of_child hbetween

/-- Pieces that are the names to a folder and fillers lead to the folder. -/
theorem advance_fillers {aim : Aim} (haim : aim ≠ .creation) (hlength : aim ≠ .canonical)
    {pieces : List Piece} {place names : Place} {entries : Entries}
    (hnames : (pieces.filter fun piece => !isFiller piece) = names.pieces)
    (hat : tree.at? (place ++ names) = some (.folder entries)) (rest : List Piece) :
    tree.advance aim place (pieces ++ rest) = tree.advance aim (place ++ names) rest := by
  induction pieces generalizing place names with
  | nil =>
    rw [List.map_eq_nil_iff.1 hnames.symm, List.append_nil, List.nil_append]
  | cons piece pieces ih =>
    obtain ⟨above, habove⟩ := folder_of_append hat
    cases hfiller : isFiller piece with
    | true =>
      rw [List.filter_cons_of_neg (by simp [hfiller])] at hnames
      rw [List.cons_append, advance_filler habove hfiller, ih hnames hat]
    | false =>
      rw [List.filter_cons_of_pos (by simp [hfiller])] at hnames
      obtain ⟨name, others, rfl, rfl, hothers⟩ := List.map_eq_cons_iff.1 hnames.symm
      rw [List.append_cons] at hat ⊢
      obtain ⟨between, hbetween⟩ := folder_of_append hat
      rw [at?_child habove] at hbetween
      have hop : Hop tree place name.piece (place ++ [name]) :=
        .down habove hbetween (by exact nofun)
      rw [List.cons_append, hop.advance haim hlength, ih hothers.symm hat]

/-! ## Paths that name the way to a folder -/

/-- A path names the folders on the way to a folder, where it starts. -/
structure Spells (tree : FileTree) (path : Path) (place : Place) : Prop where
  names : ∃ names : Place, path.telling = names.pieces ∧ place = tree.origin path ++ names
  folder : ∃ entries, tree.at? place = some (.folder entries)

theorem follow_congr {aim : Aim} {links : Nat} {place other : Place} {pieces others : List Piece}
    (h : tree.advance aim place pieces = tree.advance aim other others) :
    tree.follow aim links place pieces = tree.follow aim links other others := by
  cases links <;> simp only [follow, h]

theorem Spells.outset_join {path : Path} {place : Place} (h : tree.Spells path place)
    (name : FileName)
    (hshort : (path.join ⟨String.ofList name.piece⟩).text.utf8ByteSize < maxPathBytes) :
    tree.outset .target (path.join ⟨String.ofList name.piece⟩)
      = .ok (tree.origin path, path.named ++ [name.piece]) := by
  obtain ⟨names, htelling, _⟩ := h.names
  have hfollowable := followable_join (Path.nul_not_mem_of_telling htelling) hshort
  refine outset_eq_ok_iff.2 ⟨hfollowable, ?_, (path.steps_join name).symm⟩
  rw [origin, origin, Path.isAbsolute_join]

/-- A name below a folder is found under each path that names the way to the folder. -/
theorem find_join_congr {first second : Path} {place : Place} (hfirst : tree.Spells first place)
    (hsecond : tree.Spells second place) (name : FileName)
    (hshort : (first.join ⟨String.ofList name.piece⟩).text.utf8ByteSize < maxPathBytes)
    (hlength : (second.join ⟨String.ofList name.piece⟩).text.utf8ByteSize < maxPathBytes) :
    tree.find .target (first.join ⟨String.ofList name.piece⟩)
      = tree.find .target (second.join ⟨String.ofList name.piece⟩) := by
  have hadvance {path : Path} (h : tree.Spells path place) :
      tree.advance .target (tree.origin path) (path.named ++ [name.piece])
        = tree.advance .target place [name.piece] := by
    obtain ⟨⟨names, htelling, hplace⟩, entries, hat⟩ := h
    rw [Path.telling_eq_filter_named] at htelling
    rw [hplace] at hat ⊢
    exact advance_fillers (by decide) (by decide) htelling hat _
  have hsame := (hadvance hfirst).trans (hadvance hsecond).symm
  simp only [find, resolve, hfirst.outset_join name hshort, hsecond.outset_join name hlength,
    follow_congr hsame]

end FileTree

end FeatureDigest
