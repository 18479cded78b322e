import FeatureDigest.FileTree.Access

/-!
# Pieces of paths

What a path of a walk is made of.  The pieces of a joined path are those of the path and
of the name (`spelling_join`), and canonical paths and paths of names have the names as their
pieces (`spelling_ofPieces`, `spelling_ofNames`).
-/

set_option autoImplicit false

namespace FeatureDigest

/-! ## Spelling of joined paths -/

theorem splitSlash_append (first second : List Char) :
    splitSlash (first ++ '/' :: second) = splitSlash first ++ splitSlash second := by
  induction first with
  | nil => simp [splitSlash]
  | cons c first ih =>
    obtain ⟨piece, pieces, h⟩ := List.exists_cons_of_ne_nil (splitSlash_ne_nil first)
    by_cases hc : c = '/'
    · simp [splitSlash, hc, ih]
    · rw [List.cons_append]
      simp only [splitSlash, hc, if_false]
      rw [ih, h]
      rfl

theorem joinSlash_cons (piece : Piece) {pieces : List Piece} (h : pieces ≠ []) :
    joinSlash (piece :: pieces) = piece ++ '/' :: joinSlash pieces := by
  obtain ⟨next, more, rfl⟩ := List.exists_cons_of_ne_nil h
  rfl

theorem joinSlash_append {first second : List Piece} (hfirst : first ≠ []) (hsecond : second ≠ []) :
    joinSlash (first ++ second) = joinSlash first ++ '/' :: joinSlash second := by
  induction first with
  | nil => exact absurd rfl hfirst
  | cons piece first ih =>
    rw [List.cons_append, joinSlash_cons piece (List.append_ne_nil_of_right_ne_nil first hsecond)]
    by_cases hnone : first = []
    · rw [hnone]
      rfl
    · rw [ih hnone, joinSlash_cons piece hnone, List.append_assoc, List.cons_append]

theorem Spelling.pieces_ofText_ne_nil (text : List Char) :
    (Spelling.ofText text).pieces ≠ [] := by
  unfold Spelling.ofText
  split
  · exact splitSlash_ne_nil _
  · exact splitSlash_ne_nil _

theorem Spelling.ofText_of_relative {text : List Char} (h : text.head? ≠ some '/') :
    Spelling.ofText text = ⟨false, splitSlash text⟩ := by
  unfold Spelling.ofText
  split
  · exact absurd rfl h
  · rfl

theorem Spelling.ofText_of_not_mem {text : List Char} (h : '/' ∉ text) :
    Spelling.ofText text = ⟨false, [text]⟩ := by
  rw [Spelling.ofText_of_relative (mt List.mem_of_head? h), splitSlash_of_not_mem h]

theorem Spelling.ofText_append {first : List Char} (h : first ≠ []) (second : List Char) :
    Spelling.ofText (first ++ '/' :: second)
      = ⟨(Spelling.ofText first).rooted,
          (Spelling.ofText first).pieces ++ splitSlash second⟩ := by
  cases first with
  | nil => exact absurd rfl h
  | cons c first =>
    by_cases hc : c = '/'
    · rw [hc, List.cons_append]
      simp only [Spelling.ofText, splitSlash_append]
    · have hhead (text : List Char) : (c :: text).head? ≠ some '/' := by simpa using hc
      rw [List.cons_append, Spelling.ofText_of_relative (hhead _),
        Spelling.ofText_of_relative (hhead _), ← List.cons_append, splitSlash_append]

namespace Path

/-- The pieces of a path that are not empty. -/
def named (path : Path) : List Piece :=
  path.spelling.pieces.filter fun piece => piece ≠ []

theorem not_isAbsolute_name (name : FileName) :
    (⟨String.ofList name.piece⟩ : Path).isAbsolute = false := by
  rw [isAbsolute, spelling, String.toList_ofList,
    Spelling.ofText_of_not_mem name.slash_not_mem]

/-- The spelling of a path and one name more. -/
theorem spelling_join (path : Path) (name : FileName) :
    ∃ pieces, (path.join ⟨String.ofList name.piece⟩).spelling
        = ⟨path.spelling.rooted, pieces ++ [name.piece]⟩ ∧
      (pieces.filter fun piece => piece ≠ []) = path.named := by
  have hname := splitSlash_of_not_mem name.slash_not_mem
  unfold join
  rw [not_isAbsolute_name, if_neg (by simp)]
  by_cases hempty : path.text.toList = []
  · have htext : path.text.isEmpty = true := by simpa using hempty
    refine ⟨[], ?_, ?_⟩
    · rw [htext, Bool.true_or, if_pos rfl]
      simp only [spelling, String.toList_append, hempty, List.nil_append,
        String.toList_ofList]
      exact Spelling.ofText_of_not_mem name.slash_not_mem
    · simp [named, spelling, hempty, Spelling.ofText, splitSlash]
  · have htext : path.text.isEmpty = false := by simpa using hempty
    by_cases hlast : path.text.toList.getLast? = some '/'
    · obtain ⟨front, hfront⟩ := List.getLast?_eq_some_iff.1 hlast
      rw [htext, hlast, if_pos (by simp)]
      by_cases htop : front = []
      · refine ⟨[], ?_, ?_⟩
        · simp [spelling, hfront, htop, Spelling.ofText, hname]
        · simp [named, spelling, hfront, htop, Spelling.ofText, splitSlash]
      · refine ⟨(Spelling.ofText front).pieces, ?_, ?_⟩
        · simp only [spelling, String.toList_append, String.toList_ofList, hfront,
            List.append_assoc, List.singleton_append, Spelling.ofText_append htop, hname]
        · simp only [named, spelling, hfront, Spelling.ofText_append htop, splitSlash,
            List.filter_append]
          simp
    · refine ⟨path.spelling.pieces, ?_, rfl⟩
      have hcond : (path.text.isEmpty || decide (path.text.toList.getLast? = some '/'))
          = false := by
        rw [htext]
        simpa using hlast
      rw [hcond, if_neg (by simp)]
      have hslash : (path.text ++ "/" ++ String.ofList name.piece).toList
          = path.text.toList ++ '/' :: name.piece := by simp
      simp only [spelling, hslash, Spelling.ofText_append hempty, hname]

theorem isAbsolute_join (path : Path) (name : FileName) :
    (path.join ⟨String.ofList name.piece⟩).isAbsolute = path.isAbsolute := by
  obtain ⟨pieces, hspelling, _⟩ := spelling_join path name
  rw [isAbsolute, hspelling]
  rfl

/-- A joined path is followed through the path, without the slash it may end with, and
then through the name. -/
theorem steps_join (path : Path) (name : FileName) :
    (path.join ⟨String.ofList name.piece⟩).steps = path.named ++ [name.piece] := by
  obtain ⟨pieces, hspelling, hnamed⟩ := spelling_join path name
  have hne := name.piece_ne_nil
  unfold steps
  rw [hspelling]
  simp only [List.filter_append, hnamed, List.getLast?_append, List.getLast?_singleton,
    Option.some_or]
  simp [hne]

/-- The text of a path and one name more. -/
theorem text_join (path : Path) (name : FileName) :
    ∃ slash, (slash = "" ∨ slash = "/") ∧
      (path.join ⟨String.ofList name.piece⟩).text
        = path.text ++ slash ++ String.ofList name.piece := by
  unfold join
  rw [not_isAbsolute_name, if_neg (by simp)]
  split
  · exact ⟨"", Or.inl rfl, by simp⟩
  · exact ⟨"/", Or.inr rfl, rfl⟩

theorem utf8ByteSize_le_join (path : Path) (name : FileName) :
    path.text.utf8ByteSize
      ≤ (path.join ⟨String.ofList name.piece⟩).text.utf8ByteSize := by
  obtain ⟨slash, _, htext⟩ := text_join path name
  rw [htext, String.utf8ByteSize_append, String.utf8ByteSize_append]
  omega

theorem steps_eq_named (path : Path) :
    path.steps = path.named ∨ path.steps = path.named ++ [[]] := by
  unfold steps named
  dsimp only
  split
  · exact Or.inr rfl
  · exact Or.inl (by simp)

theorem steps_ne_nil (path : Path) : path.steps ≠ [] := by
  intro hsteps
  unfold steps at hsteps
  obtain ⟨hpieces, hslash⟩ := List.append_eq_nil_iff.1 hsteps
  have hlast (pieces : List Piece) (hpieces : pieces.filter (fun piece => piece ≠ []) = [])
      (hne : pieces ≠ []) : pieces.getLast? = some [] := by
    rw [List.getLast?_eq_some_getLast hne]
    have hmem := List.getLast_mem hne
    simpa using List.filter_eq_nil_iff.1 hpieces _ hmem
  have hne : path.spelling.pieces ≠ [] := Spelling.pieces_ofText_ne_nil path.text.toList
  rw [if_pos (hlast _ hpieces hne)] at hslash
  cases hslash

/-- The path of names below a path, joined one after the other. -/
def under (path : Path) (names : Place) : Path :=
  names.foldl (fun above name => above.join ⟨String.ofList name.piece⟩) path

@[simp] theorem under_nil (path : Path) : path.under [] = path := rfl

theorem under_cons (path : Path) (name : FileName) (names : Place) :
    path.under (name :: names) = (path.join ⟨String.ofList name.piece⟩).under names := rfl

theorem under_append (path : Path) (names more : Place) :
    path.under (names ++ more) = (path.under names).under more :=
  List.foldl_append

theorem named_join (path : Path) (name : FileName) :
    (path.join ⟨String.ofList name.piece⟩).named = path.named ++ [name.piece] := by
  obtain ⟨pieces, hspelling, hnamed⟩ := spelling_join path name
  have hname : ([name.piece].filter fun piece => piece ≠ []) = [name.piece] := by
    simp [name.piece_ne_nil]
  rw [named, hspelling, List.filter_append, hnamed, hname]

theorem utf8ByteSize_le_under (path : Path) (names : Place) :
    path.text.utf8ByteSize ≤ (path.under names).text.utf8ByteSize := by
  induction names generalizing path with
  | nil => exact Nat.le_refl _
  | cons name names ih =>
    rw [under_cons]
    exact Nat.le_trans (utf8ByteSize_le_join path name) (ih _)

end Path

/-! ## Spelling of paths from the top -/

theorem mem_joinSlash {c : Char} {pieces : List Piece} (h : c ∈ joinSlash pieces) :
    c = '/' ∨ ∃ piece ∈ pieces, c ∈ piece := by
  induction pieces with
  | nil => simp [joinSlash] at h
  | cons piece rest ih =>
    cases rest with
    | nil => exact Or.inr ⟨piece, by simp, h⟩
    | cons next more =>
      simp only [joinSlash, List.mem_append, List.mem_cons] at h
      rcases h with h | rfl | h
      · exact Or.inr ⟨piece, by simp, h⟩
      · exact Or.inl rfl
      · rcases ih (by simpa [joinSlash] using h) with hslash | ⟨other, hmem, hother⟩
        · exact Or.inl hslash
        · exact Or.inr ⟨other, List.mem_cons_of_mem _ hmem, hother⟩

theorem mem_joinSlash_of_mem {c : Char} {piece : Piece} {pieces : List Piece}
    (hpiece : piece ∈ pieces) (hc : c ∈ piece) : c ∈ joinSlash pieces := by
  induction pieces with
  | nil => cases hpiece
  | cons first rest ih =>
    cases rest with
    | nil =>
      obtain rfl := List.mem_singleton.1 hpiece
      exact hc
    | cons next more =>
      rw [joinSlash, List.mem_append, List.mem_cons]
      · rcases List.mem_cons.1 hpiece with rfl | hrest
        · exact Or.inl hc
        · exact Or.inr (Or.inr (ih hrest))
      · simp

namespace Place

/-- The pieces of a place. -/
abbrev pieces (place : Place) : List Piece := place.map FileName.piece

theorem exists_name_of_mem {place : Place} {piece : Piece} (h : piece ∈ place.pieces) :
    ∃ name : FileName, piece = name.piece := by
  obtain ⟨name, _, rfl⟩ := List.mem_map.1 h
  exact ⟨name, rfl⟩

theorem slash_not_mem (place : Place) : ∀ piece ∈ place.pieces, '/' ∉ piece := by
  intro piece hmem
  obtain ⟨name, rfl⟩ := exists_name_of_mem hmem
  exact name.slash_not_mem

theorem filter_ne_nil (place : Place) :
    (place.pieces.filter fun piece => piece ≠ []) = place.pieces := by
  apply List.filter_eq_self.2
  intro piece hmem
  obtain ⟨name, rfl⟩ := exists_name_of_mem hmem
  simpa using name.piece_ne_nil

theorem filter_not_isFiller (place : Place) :
    (place.pieces.filter fun piece => !isFiller piece) = place.pieces := by
  apply List.filter_eq_self.2
  intro piece hmem
  obtain ⟨name, rfl⟩ := exists_name_of_mem hmem
  rw [name.not_isFiller]
  rfl

theorem getLast?_ne (place : Place) : place.pieces.getLast? ≠ some [] := by
  intro hlast
  obtain ⟨name, hname⟩ := exists_name_of_mem (List.mem_of_getLast? hlast)
  exact name.piece_ne_nil hname.symm

theorem nul_not_mem_joinSlash (place : Place) : '\x00' ∉ joinSlash place.pieces := by
  intro hnul
  rcases mem_joinSlash hnul with hslash | ⟨piece, hpiece, hmem⟩
  · exact absurd hslash (by decide)
  · obtain ⟨name, rfl⟩ := exists_name_of_mem hpiece
    exact name.nul_not_mem hmem

end Place

namespace Path

theorem isAbsolute_ofPieces (pieces : List Piece) : (ofPieces pieces).isAbsolute = true := by
  simp only [isAbsolute, ofPieces, spelling, String.toList_ofList, Spelling.ofText]

theorem spelling_ofPieces {pieces : List Piece} (hne : pieces ≠ [])
    (hslash : ∀ piece ∈ pieces, '/' ∉ piece) :
    (ofPieces pieces).spelling = ⟨true, pieces⟩ := by
  simp only [ofPieces, spelling, String.toList_ofList, Spelling.ofText,
    splitSlash_joinSlash hne hslash]

theorem mem_text_of_mem_pieces {path : Path} {piece : Piece} {c : Char}
    (hpiece : piece ∈ path.spelling.pieces) (hc : c ∈ piece) : c ∈ path.text.toList := by
  have hsplit (text : List Char) (hpiece : piece ∈ splitSlash text) : c ∈ text := by
    rw [← joinSlash_splitSlash text]
    exact mem_joinSlash_of_mem hpiece hc
  unfold spelling Spelling.ofText at hpiece
  split at hpiece
  · rename_i body hbody
    rw [hbody]
    exact List.mem_cons_of_mem _ (hsplit body hpiece)
  · exact hsplit _ hpiece

theorem slash_not_mem_of_mem_pieces {path : Path} {piece : Piece}
    (hpiece : piece ∈ path.spelling.pieces) : '/' ∉ piece := by
  unfold spelling Spelling.ofText at hpiece
  split at hpiece
  · exact not_mem_of_mem_splitSlash hpiece
  · exact not_mem_of_mem_splitSlash hpiece

/-- The pieces of a path that are no fillers. -/
def telling (path : Path) : List Piece :=
  path.spelling.pieces.filter fun piece => !isFiller piece

theorem telling_eq_filter_named (path : Path) :
    path.telling = path.named.filter fun piece => !isFiller piece := by
  unfold telling named
  rw [List.filter_filter]
  apply List.filter_congr
  intro piece _
  by_cases hempty : piece = [] <;> simp [hempty, isFiller]

/-- The empty piece of a path that ends with a slash. -/
def ending (path : Path) : List Piece :=
  if path.spelling.pieces.getLast? = some [] then [[]] else []

theorem steps_eq (path : Path) : path.steps = path.named ++ path.ending := rfl

theorem hasTwoSlashes_of_not_isAbsolute {path : Path} (h : path.isAbsolute = false) :
    path.hasTwoSlashes = false := by
  unfold isAbsolute spelling Spelling.ofText at h
  split at h
  · cases h
  · rename_i hrelative
    unfold hasTwoSlashes
    split
    · rename_i c rest htext
      exact absurd htext (hrelative _)
    · rename_i htext
      exact absurd htext (hrelative _)
    · rfl

/-- A second slash in front of a path changes nothing about the pieces to follow. -/
theorem steps_slash (text : List Char) :
    (⟨"/" ++ String.ofList ('/' :: text)⟩ : Path).steps
      = (⟨String.ofList ('/' :: text)⟩ : Path).steps := by
  have hlast : ([] :: splitSlash text).getLast? = (splitSlash text).getLast? := by
    obtain ⟨piece, pieces, h⟩ := List.exists_cons_of_ne_nil (splitSlash_ne_nil text)
    rw [h, List.getLast?_cons_cons]
  simp [steps, spelling, Spelling.ofText, splitSlash, hlast]

theorem steps_ofPlace (place : Place) :
    (ofPlace place).steps = place.pieces ++ (if place = [] then [[]] else []) := by
  cases place with
  | nil => rfl
  | cons name place =>
    have hne : Place.pieces (name :: place) ≠ [] := by simp
    unfold ofPlace steps
    rw [spelling_ofPieces hne (Place.slash_not_mem _)]
    dsimp only
    rw [if_neg (Place.getLast?_ne _), if_neg (by simp), Place.filter_ne_nil]

theorem named_under (path : Path) (names : Place) :
    (path.under names).named = path.named ++ names.pieces := by
  induction names generalizing path with
  | nil => rw [under_nil, Place.pieces, List.map_nil, List.append_nil]
  | cons name names ih =>
    rw [under_cons, ih, named_join, List.append_assoc]
    rfl

/-- The path of some names, one below the other. -/
def ofNames (names : Place) : Path := ⟨String.ofList (joinSlash names.pieces)⟩

theorem spelling_ofNames {names : Place} (hne : names ≠ []) :
    (ofNames names).spelling = ⟨false, names.pieces⟩ := by
  have hsplit := splitSlash_joinSlash (by simpa using hne) names.slash_not_mem
  obtain ⟨name, rest, rfl⟩ := List.exists_cons_of_ne_nil hne
  rw [ofNames, spelling, String.toList_ofList]
  unfold Spelling.ofText
  split
  · rename_i body hbody
    rw [hbody, splitSlash, if_pos rfl, Place.pieces, List.map_cons, List.cons.injEq] at hsplit
    exact absurd hsplit.1.symm name.piece_ne_nil
  · rw [hsplit]

theorem text_ofNames_ne {names : Place} (hne : names ≠ []) : (ofNames names).text ≠ "" := by
  intro hempty
  have hspelling := spelling_ofNames hne
  rw [spelling, hempty] at hspelling
  have hpieces : names.pieces = [[]] := (congrArg Spelling.pieces hspelling).symm
  apply names.getLast?_ne
  rw [hpieces]
  rfl

/-- The canonical path of a place below the top is as long as its names and a slash in
front of each. -/
theorem utf8ByteSize_ofPlace {place : Place} (hne : place ≠ []) :
    (ofPlace place).text.utf8ByteSize = pathBytes place := by
  unfold ofPlace ofPieces
  rw [Text.utf8ByteSize_ofList]
  induction place with
  | nil => exact absurd rfl hne
  | cons name place ih =>
    have hslash : Char.utf8Size '/' = 1 := by decide
    cases place with
    | nil => simp [joinSlash, Text.byteCount, pathBytes, hslash]
    | cons next place =>
      have hrest := ih (by simp)
      simp only [List.map_cons, joinSlash, Text.byteCount, Text.byteCount_append, pathBytes,
        hslash] at hrest ⊢
      omega

/-- Names are shorter than their canonical path by the slash in front. -/
theorem utf8ByteSize_ofNames {names : Place} (hne : names ≠ []) :
    (ofNames names).text.utf8ByteSize + 1 = pathBytes names := by
  have hslash : Char.utf8Size '/' = 1 := by decide
  rw [← utf8ByteSize_ofPlace hne, ofPlace, ofPieces, ofNames, Text.utf8ByteSize_ofList,
    Text.utf8ByteSize_ofList, Text.byteCount, hslash, Nat.add_comm]

end Path

end FeatureDigest
