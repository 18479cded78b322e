import FeatureDigest.Proofs.Path.Components

/-!
# Texts of walked paths

How the paths that a walk comes by are written.  All paths of names below one path are written
with the same characters in front (`Path.text_under`), and relative to that path they are the
names (`Path.relativeTo_under`), whatever slashes and dots it is written with.  So the text of a
walked path, and that of its relative path, goes on in the texts of all that is below it
(`Path.text_under_prefix`, `Path.text_ofNames_prefix`).
-/

set_option autoImplicit false

namespace FeatureDigest

open Component (ofPiece?)

namespace Spelling

/-- A slash at the end of what has pieces already names nothing. -/
theorem components_concat_nil {rooted : Bool} {pieces : List Piece} (h : pieces ≠ []) :
    components ⟨rooted, pieces ++ [[]]⟩ = components ⟨rooted, pieces⟩ := by
  have hnone (others : List Piece) :
      (others ++ [[]]).filterMap ofPiece? = others.filterMap ofPiece? := by
    have hslash : [[]].filterMap ofPiece? = [] := by decide
    rw [List.filterMap_append, hslash, List.append_nil]
  obtain ⟨first, rest, rfl⟩ := List.exists_cons_of_ne_nil h
  cases rooted with
  | true => rw [components, components, if_pos rfl, if_pos rfl, hnone]
  | false =>
    rw [components, components, if_neg Bool.false_ne_true, if_neg Bool.false_ne_true]
    simp only [List.cons_append, hnone]

end Spelling

/-! ## Paths of names below a path -/

namespace Path

/-- What stands in front of a name that is joined to the path. -/
def stem (path : Path) : List Char :=
  if path.text.isEmpty || path.text.toList.getLast? = some '/' then path.text.toList
  else path.text.toList ++ ['/']

theorem ends_iff (path : Path) :
    (path.text.isEmpty || path.text.toList.getLast? = some '/') = true
      ↔ path.text.toList = [] ∨ path.text.toList.getLast? = some '/' := by
  rw [Bool.or_eq_true, decide_eq_true_eq, String.isEmpty_iff, String.toList_eq_nil_iff]

theorem toList_text_join_of_relative (path : Path) {child : Path} (h : child.isAbsolute = false) :
    (path.join child).text.toList = path.stem ++ child.text.toList := by
  rw [join, h, if_neg Bool.false_ne_true, stem]
  split
  · rw [String.toList_append]
  · rw [String.toList_append, String.toList_append]
    rfl

theorem toList_text_join (path : Path) (name : FileName) :
    (path.join ⟨String.ofList name.piece⟩).text.toList = path.stem ++ name.piece := by
  rw [toList_text_join_of_relative path (not_isAbsolute_name name), String.toList_ofList]

/-- A joined path has a slash in front of the next name. -/
theorem stem_join (path : Path) (name : FileName) :
    (path.join ⟨String.ofList name.piece⟩).stem = path.stem ++ name.piece ++ ['/'] := by
  have hlast : (path.stem ++ name.piece).getLast? ≠ some '/' := by
    rw [List.getLast?_append, List.getLast?_eq_some_getLast name.piece_ne_nil, Option.some_or]
    intro hslash
    have hmem := List.getLast_mem name.piece_ne_nil
    rw [Option.some.inj hslash] at hmem
    exact name.slash_not_mem hmem
  have hne : path.stem ++ name.piece ≠ [] :=
    List.append_ne_nil_of_right_ne_nil path.stem name.piece_ne_nil
  have hends : ¬ (path.join ⟨String.ofList name.piece⟩).text.toList = [] ∧
      (path.join ⟨String.ofList name.piece⟩).text.toList.getLast? ≠ some '/' := by
    rw [toList_text_join]
    exact ⟨hne, hlast⟩
  rw [stem, if_neg (mt (ends_iff _).1 (not_or.2 hends)), toList_text_join]

/-- Names below a path are written after its stem, with slashes between them. -/
theorem text_under (path : Path) {names : Place} (h : names ≠ []) :
    (path.under names).text.toList = path.stem ++ joinSlash names.pieces := by
  induction names generalizing path with
  | nil => exact absurd rfl h
  | cons name names ih =>
    rw [under_cons]
    by_cases hmore : names = []
    · rw [hmore, under_nil, toList_text_join]
      rfl
    · have hjoin : joinSlash (Place.pieces (name :: names))
          = name.piece ++ '/' :: joinSlash (Place.pieces names) :=
        joinSlash_cons name.piece (mt List.map_eq_nil_iff.1 hmore)
      rw [ih _ hmore, stem_join, hjoin]
      simp only [List.append_assoc, List.singleton_append]

/-- A stem that is not empty ends with a slash, and is the text of the path up to that slash. -/
theorem stem_cases (path : Path) :
    (path.stem = [] ∧ path.text.toList = []) ∨
      ∃ body, path.stem = body ++ ['/'] ∧
        (path.text.toList = body ++ ['/'] ∨ path.text.toList = body ∧ body ≠ []) := by
  rw [stem]
  split
  · rename_i hends
    rcases path.ends_iff.1 hends with hempty | hslash
    · exact Or.inl ⟨hempty, hempty⟩
    · obtain ⟨body, hbody⟩ := List.getLast?_eq_some_iff.1 hslash
      exact Or.inr ⟨body, hbody, Or.inl hbody⟩
  · rename_i hends
    have hne := (not_or.1 (mt path.ends_iff.2 hends)).1
    exact Or.inr ⟨path.text.toList, rfl, Or.inr ⟨rfl, hne⟩⟩

/-- What is written after the stem of a path comes after pieces that name what the path names. -/
theorem spelling_stem (path : Path) {text : List Char} {pieces : List Piece}
    (h : Spelling.ofText text = ⟨false, pieces⟩) :
    ∃ front, Spelling.ofText (path.stem ++ text) = ⟨path.isAbsolute, front ++ pieces⟩ ∧
      Spelling.components ⟨path.isAbsolute, front⟩ = path.components := by
  have hsplit : splitSlash text = pieces := by
    unfold Spelling.ofText at h
    split at h
    · cases h
    · exact congrArg Spelling.pieces h
  rw [isAbsolute, components, spelling]
  rcases path.stem_cases with ⟨hstem, htext⟩ | ⟨body, hstem, htext⟩
  · rw [hstem, htext]
    exact ⟨[], h, rfl⟩
  · rw [hstem, List.append_assoc, List.singleton_append]
    by_cases hbody : body = []
    · rw [hbody] at htext ⊢
      rcases htext with htext | ⟨-, hne⟩
      · rw [htext]
        exact ⟨[], congrArg (Spelling.mk true) hsplit, rfl⟩
      · exact absurd rfl hne
    · rw [Spelling.ofText_append hbody, hsplit]
      rcases htext with htext | ⟨htext, -⟩
      · -- The path has an empty piece at its end, which is not in front of the text.
        rw [htext, Spelling.ofText_append hbody]
        exact ⟨_, rfl, (Spelling.components_concat_nil (Spelling.pieces_ofText_ne_nil body)).symm⟩
      · rw [htext]
        exact ⟨_, rfl, rfl⟩

/-- The pieces of names below a path come after pieces that name what the path names. -/
theorem spelling_under (path : Path) (names : Place) :
    ∃ front, (path.under names).spelling = ⟨path.isAbsolute, front ++ names.pieces⟩ ∧
      Spelling.components ⟨path.isAbsolute, front⟩ = path.components := by
  by_cases hnames : names = []
  · rw [hnames, under_nil, Place.pieces, List.map_nil]
    exact ⟨path.spelling.pieces, by rw [List.append_nil]; rfl, rfl⟩
  have hspelling := spelling_ofNames hnames
  rw [ofNames, spelling, String.toList_ofList] at hspelling
  rw [spelling, text_under path hnames]
  exact path.spelling_stem hspelling

end Path

/-! ## Names below a path, relative to it -/

/-- After the pieces that name something come the fillers in front of the next one. -/
theorem dropWhile_dropPieces (front : List Piece) (names : Place) :
    (dropPieces (front.filterMap ofPiece?).length (front ++ names.pieces)).dropWhile isFiller
      = names.pieces := by
  induction front with
  | nil =>
    cases names with
    | nil => rfl
    | cons name names =>
      exact List.dropWhile_cons_of_neg (by rw [name.not_isFiller]; exact Bool.false_ne_true)
  | cons piece front ih =>
    cases hpiece : isFiller piece with
    | true =>
      rw [List.filterMap_cons_none (Component.ofPiece?_filler hpiece), List.cons_append]
      generalize (front.filterMap ofPiece?).length = count at ih ⊢
      cases count with
      | zero =>
        rw [dropPieces, List.dropWhile_cons_of_pos hpiece]
        rw [dropPieces] at ih
        exact ih
      | succ count =>
        rw [dropPieces, if_pos hpiece]
        exact ih
    | false =>
      obtain ⟨component, hcomponent, -⟩ := Component.exists_ofPiece? hpiece
      rw [List.filterMap_cons_some hcomponent, List.length_cons, List.cons_append, dropPieces,
        hpiece, if_neg Bool.false_ne_true]
      exact ih

namespace Spelling

/-- Pieces of names are what is left after the components of the pieces in front of them. -/
theorem text_after {rooted : Bool} {front : List Piece} {names : Place}
    (h : Proper ⟨rooted, front ++ names.pieces⟩) :
    (after ⟨rooted, front ++ names.pieces⟩ (components ⟨rooted, front⟩).length).text
      = joinSlash names.pieces := by
  cases rooted with
  | true =>
    rw [components, if_pos rfl, List.length_cons, after]
    dsimp only
    rw [if_pos rfl, dropWhile_dropPieces, dropTrailingFillers_pieces]
    rfl
  | false =>
    cases front with
    | nil =>
      cases names with
      | nil => rfl
      | cons name names =>
        have hkept : trimmed ⟨false, Place.pieces (name :: names)⟩
            = ⟨false, Place.pieces (name :: names)⟩ :=
          congrArg (fun kept => Spelling.mk false (name.piece :: kept))
            (dropTrailingFillers_pieces names)
        exact congrArg text hkept
    | cons first rest =>
      by_cases hfirst : first = []
      · have hnone := h.first_ne_nil rfl (rest ++ names.pieces) (by rw [hfirst]; rfl)
        obtain ⟨hrest, hnames⟩ := List.append_eq_nil_iff.1 hnone
        rw [hfirst, hrest, hnames]
        rfl
      · obtain ⟨component, hcomponent⟩ := Component.exists_ofFirstPiece? hfirst
        have hlength : (components ⟨false, first :: rest⟩).length
            = (rest.filterMap ofPiece?).length + 1 := by
          simp [components, hcomponent]
        rw [hlength, after]
        dsimp only
        rw [if_neg Bool.false_ne_true, List.cons_append, List.tail_cons, dropWhile_dropPieces,
          dropTrailingFillers_pieces]
        rfl

end Spelling

namespace Path

theorem relativeTo_under (path : Path) (names : Place) :
    (path.under names).relativeTo path = ofNames names := by
  obtain ⟨front, hspelling, hcomponents⟩ := path.spelling_under names
  have hproper := (path.under names).proper_spelling
  rw [hspelling] at hproper
  have hstarts : path.components <+: (path.under names).components :=
    ⟨names.components, (components_under path names).symm⟩
  rw [relativeTo, relativeTo?, if_pos (startsWith_iff.2 hstarts), Option.getD_some, hspelling,
    ← hcomponents, ofSpelling, Spelling.text_after hproper]
  rfl

/-! ## More names -/

/-- The text of a path goes on in the texts of all that is below it. -/
theorem text_under_prefix (path : Path) {front names : Place} (h : front <+: names) :
    (path.under front).text.toList <+: (path.under names).text.toList := by
  obtain ⟨more, rfl⟩ := h
  rw [under_append]
  generalize path.under front = reached
  induction more generalizing reached with
  | nil => exact List.prefix_rfl
  | cons name more ih =>
    obtain ⟨slash, -, htext⟩ := text_join reached name
    refine List.IsPrefix.trans ?_ (ih _)
    rw [htext, String.toList_append, String.toList_append, List.append_assoc]
    exact List.prefix_append _ _

/-- The text of names goes on in the texts of all that is below them. -/
theorem text_ofNames_prefix {front names : Place} (h : front <+: names) :
    (ofNames front).text.toList <+: (ofNames names).text.toList := by
  obtain ⟨more, rfl⟩ := h
  rw [ofNames, ofNames, String.toList_ofList, String.toList_ofList, Place.pieces, Place.pieces,
    List.map_append]
  by_cases hfront : front = []
  · rw [hfront]
    exact List.nil_prefix
  by_cases hmore : more = []
  · simp [hmore]
  · rw [joinSlash_append (mt List.map_eq_nil_iff.1 hfront) (mt List.map_eq_nil_iff.1 hmore)]
    exact List.prefix_append _ _

end Path

end FeatureDigest
