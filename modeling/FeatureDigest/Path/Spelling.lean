/-!
# Spellings of paths

A path is spelled as pieces between slashes, with a slash in front when it starts
at the top of the file tree.  Empty pieces and `.` pieces name nothing, except
that a path may start with `.`; such pieces are fillers.
-/

set_option autoImplicit false

namespace FeatureDigest

/-- What stands between two slashes of a path. -/
abbrev Piece := List Char

/-- The piece names nothing: it is empty or `.`. -/
def isFiller (piece : Piece) : Bool := piece == [] || piece == ['.']

/-- The pieces between the slashes of a text; at least one. -/
def splitSlash : List Char → List Piece
  | [] => [[]]
  | c :: rest =>
    if c = '/' then [] :: splitSlash rest
    else
      match splitSlash rest with
      | [] => [[c]]
      | piece :: pieces => (c :: piece) :: pieces

/-- The pieces with a slash between each two. -/
def joinSlash : List Piece → List Char
  | [] => []
  | [piece] => piece
  | piece :: pieces => piece ++ '/' :: joinSlash pieces

/-- The pieces without the fillers they end with. -/
def dropTrailingFillers : List Piece → List Piece
  | [] => []
  | piece :: pieces =>
    match dropTrailingFillers pieces with
    | [] => if isFiller piece then [] else [piece]
    | kept => piece :: kept

/-- The pieces after the first `count` that are not fillers. -/
def dropPieces : (count : Nat) → List Piece → List Piece
  | 0, pieces => pieces
  | _ + 1, [] => []
  | count + 1, piece :: pieces =>
    if isFiller piece then dropPieces (count + 1) pieces else dropPieces count pieces

theorem splitSlash_ne_nil (text : List Char) : splitSlash text ≠ [] := by
  cases text with
  | nil => simp [splitSlash]
  | cons c rest =>
    simp only [splitSlash]
    split
    · simp
    · split <;> simp

/-- Splitting loses nothing. -/
@[simp] theorem joinSlash_splitSlash (text : List Char) :
    joinSlash (splitSlash text) = text := by
  induction text with
  | nil => rfl
  | cons c rest ih =>
    obtain ⟨piece, pieces, h⟩ := List.exists_cons_of_ne_nil (splitSlash_ne_nil rest)
    rw [h] at ih
    by_cases hc : c = '/'
    · simp [splitSlash, hc, h, joinSlash, ih]
    · simp only [splitSlash, hc, if_false, h]
      cases pieces with
      | nil => simpa [joinSlash] using ih
      | cons next more => simpa [joinSlash] using ih

theorem not_mem_of_mem_splitSlash {text : List Char} {piece : Piece}
    (h : piece ∈ splitSlash text) : '/' ∉ piece := by
  induction text generalizing piece with
  | nil => simp_all [splitSlash]
  | cons c rest ih =>
    obtain ⟨first, pieces, hs⟩ := List.exists_cons_of_ne_nil (splitSlash_ne_nil rest)
    by_cases hc : c = '/'
    · simp only [splitSlash, hc, if_true, List.mem_cons] at h
      rcases h with rfl | h
      · simp
      · exact ih h
    · simp only [splitSlash, hc, if_false, hs, List.mem_cons] at h
      rcases h with rfl | h
      · simp only [List.mem_cons, not_or]
        exact ⟨fun e => hc e.symm, ih (by simp [hs])⟩
      · exact ih (by simp [hs, h])

/-- A text without a slash is one piece. -/
theorem splitSlash_of_not_mem {piece : Piece} (h : '/' ∉ piece) :
    splitSlash piece = [piece] := by
  induction piece with
  | nil => rfl
  | cons c rest ih =>
    simp only [List.mem_cons, not_or] at h
    simp [splitSlash, Ne.symm h.1, ih h.2]

theorem splitSlash_append_slash {piece : Piece} (text : List Char) (h : '/' ∉ piece) :
    splitSlash (piece ++ '/' :: text) = piece :: splitSlash text := by
  induction piece with
  | nil => simp [splitSlash]
  | cons c rest ih =>
    simp only [List.mem_cons, not_or] at h
    simp [splitSlash, Ne.symm h.1, ih h.2]

/-- Pieces without a slash are what splitting finds between slashes. -/
theorem splitSlash_joinSlash {pieces : List Piece} (hne : pieces ≠ [])
    (h : ∀ piece ∈ pieces, '/' ∉ piece) : splitSlash (joinSlash pieces) = pieces := by
  induction pieces with
  | nil => exact absurd rfl hne
  | cons piece rest ih =>
    cases rest with
    | nil => exact splitSlash_of_not_mem (h piece List.mem_cons_self)
    | cons next more =>
      rw [joinSlash, splitSlash_append_slash _ (h piece List.mem_cons_self),
        ih (by simp) fun other hm => h other (List.mem_cons_of_mem _ hm)]
      simp

end FeatureDigest
