import FeatureDigest.Path.Basic

/-!
# File extensions

The extension of a path is what follows the last dot of its file name.  A name
whose only dot is its first character has none.
-/

set_option autoImplicit false

namespace FeatureDigest

/-- What stands before and after the last dot of a name. -/
def splitLastDot? : Piece → Option (Piece × Piece)
  | [] => none
  | c :: rest =>
    match splitLastDot? rest with
    | some (stem, extension) => some (c :: stem, extension)
    | none => if c = '.' then some ([], rest) else none

theorem splitLastDot?_eq_none_iff {name : Piece} :
    splitLastDot? name = none ↔ '.' ∉ name := by
  induction name with
  | nil => simp [splitLastDot?]
  | cons c rest ih =>
    unfold splitLastDot?
    cases h : splitLastDot? rest with
    | some found =>
      have : '.' ∈ rest := Decidable.not_not.1 fun hn => by simp [ih.2 hn] at h
      simp [this]
    | none =>
      by_cases hc : c = '.'
      · simp [hc]
      · simp [hc, ih.1 h, Ne.symm hc]

/-- A name is cut at its last dot. -/
theorem splitLastDot?_append {extension : Piece} (stem : Piece) (h : '.' ∉ extension) :
    splitLastDot? (stem ++ '.' :: extension) = some (stem, extension) := by
  induction stem with
  | nil => simp [splitLastDot?, splitLastDot?_eq_none_iff.2 h]
  | cons c stem ih => simp [splitLastDot?, ih]

theorem eq_append_of_splitLastDot? {name stem extension : Piece}
    (h : splitLastDot? name = some (stem, extension)) :
    name = stem ++ '.' :: extension ∧ '.' ∉ extension := by
  induction name generalizing stem with
  | nil => simp [splitLastDot?] at h
  | cons c rest ih =>
    unfold splitLastDot? at h
    cases hr : splitLastDot? rest with
    | some found =>
      obtain ⟨before, after⟩ := found
      simp only [hr, Option.some.injEq, Prod.mk.injEq] at h
      obtain ⟨rfl, rfl⟩ := h
      exact ⟨by rw [(ih hr).1]; rfl, (ih hr).2⟩
    | none =>
      simp only [hr] at h
      split at h
      · rename_i hc
        simp only [Option.some.injEq, Prod.mk.injEq] at h
        obtain ⟨rfl, rfl⟩ := h
        exact ⟨by simp [hc], splitLastDot?_eq_none_iff.1 hr⟩
      · simp at h

namespace Path

/-- The extension of a path's file name, without the dot. -/
def extension? (path : Path) : Option Piece := do
  let name ← path.fileName?
  let (stem, extension) ← splitLastDot? name
  if stem = [] then none else some extension

/-- The path has one of the extensions, each given with or without leading dots. -/
def hasExtension (path : Path) (extensions : List String) : Bool :=
  match path.extension? with
  | none => false
  | some extension =>
    extensions.any fun candidate => candidate.toList.dropWhile (· == '.') == extension

end Path

end FeatureDigest
