import FeatureDigest.Path.Spelling
import FeatureDigest.Text.Bytes

/-!
# File names

A file name is a piece that can name an entry of a folder.  Names are ordered by
code point, which is the order of their bytes in UTF-8.
-/

set_option autoImplicit false

namespace FeatureDigest

/-- A piece comes before another one: where they first differ it has the smaller code
point, or ends. -/
def comesBefore : Piece → Piece → Bool
  | _, [] => false
  | [], _ :: _ => true
  | a :: first, b :: second =>
    decide (a.toNat < b.toNat) || (a.toNat == b.toNat && comesBefore first second)

theorem comesBefore_irrefl (piece : Piece) : comesBefore piece piece = false := by
  induction piece with
  | nil => rfl
  | cons c rest ih => simp [comesBefore, ih]

theorem comesBefore_trans {a b c : Piece} (hab : comesBefore a b = true)
    (hbc : comesBefore b c = true) : comesBefore a c = true := by
  induction a generalizing b c with
  | nil =>
    cases c with
    | nil => cases b <;> simp [comesBefore] at hbc
    | cons z c => rfl
  | cons x a ih =>
    cases b with
    | nil => simp [comesBefore] at hab
    | cons y b =>
      cases c with
      | nil => simp [comesBefore] at hbc
      | cons z c =>
        simp only [comesBefore, Bool.or_eq_true, Bool.and_eq_true, decide_eq_true_eq,
          beq_iff_eq] at hab hbc ⊢
        rcases hab with hab | ⟨hxy, hab⟩
        · rcases hbc with hbc | ⟨hyz, _⟩
          · exact Or.inl (Nat.lt_trans hab hbc)
          · exact Or.inl (hyz ▸ hab)
        · rcases hbc with hbc | ⟨hyz, hbc⟩
          · exact Or.inl (hxy ▸ hbc)
          · exact Or.inr ⟨hxy.trans hyz, ih hab hbc⟩

/-- Two pieces are ordered one way or the other, or agree. -/
theorem comesBefore_total (a b : Piece) :
    comesBefore a b = true ∨ a = b ∨ comesBefore b a = true := by
  induction a generalizing b with
  | nil => cases b <;> simp [comesBefore]
  | cons x a ih =>
    cases b with
    | nil => simp [comesBefore]
    | cons y b =>
      simp only [comesBefore, Bool.or_eq_true, Bool.and_eq_true, decide_eq_true_eq,
        beq_iff_eq, List.cons.injEq]
      rcases Nat.lt_trichotomy x.toNat y.toNat with h | h | h
      · exact Or.inl (Or.inl h)
      · have hxy : x = y := Char.toNat_inj.1 h
        rcases ih b with hab | hab | hab
        · exact Or.inl (Or.inr ⟨h, hab⟩)
        · exact Or.inr (Or.inl ⟨hxy, hab⟩)
        · exact Or.inr (Or.inr (Or.inr ⟨h.symm, hab⟩))
      · exact Or.inr (Or.inr (Or.inl h))

/-- The most bytes that a file name may have. -/
def maxNameBytes : Nat := 255

/-- The piece can name an entry: it is neither a filler nor `..`, has no slash and
no NUL, and is not too long. -/
def namesEntry (piece : Piece) : Bool :=
  !isFiller piece && piece != ['.', '.'] && !piece.contains '/'
    && !piece.contains '\x00' && Text.byteCount piece ≤ maxNameBytes

/-- The name of an entry of a folder. -/
structure FileName where
  piece : Piece
  namesEntry : namesEntry piece = true
  deriving DecidableEq, Repr

namespace FileName

/-- The name that a piece is, if it is one. -/
def ofPiece? (piece : Piece) : Option FileName :=
  if h : FeatureDigest.namesEntry piece = true then some ⟨piece, h⟩ else none

@[simp] theorem ofPiece?_piece (name : FileName) : ofPiece? name.piece = some name := by
  simp [ofPiece?, name.namesEntry]

theorem piece_of_ofPiece? {piece : Piece} {name : FileName}
    (h : ofPiece? piece = some name) : name.piece = piece := by
  unfold ofPiece? at h
  split at h
  · cases h; rfl
  · simp at h

theorem piece_injective {a b : FileName} (h : a.piece = b.piece) : a = b := by
  cases a; cases b; simp_all

theorem slash_not_mem (name : FileName) : '/' ∉ name.piece := by
  have h := name.namesEntry
  simp only [FeatureDigest.namesEntry, Bool.and_eq_true, Bool.not_eq_true'] at h
  simpa using h.1.1.2

theorem nul_not_mem (name : FileName) : '\x00' ∉ name.piece := by
  have h := name.namesEntry
  simp only [FeatureDigest.namesEntry, Bool.and_eq_true, Bool.not_eq_true'] at h
  simpa using h.1.2

theorem not_isFiller (name : FileName) : isFiller name.piece = false := by
  have h := name.namesEntry
  simp only [FeatureDigest.namesEntry, Bool.and_eq_true, Bool.not_eq_true'] at h
  exact h.1.1.1.1

theorem piece_ne_nil (name : FileName) : name.piece ≠ [] := by
  intro h
  have hfiller := name.not_isFiller
  rw [h] at hfiller
  exact absurd hfiller (by decide)

theorem ne_up (name : FileName) : name.piece ≠ ['.', '.'] := by
  have h := name.namesEntry
  simp only [FeatureDigest.namesEntry, Bool.and_eq_true, bne_iff_ne, ne_eq] at h
  exact h.1.1.1.2

theorem byteCount_le (name : FileName) : Text.byteCount name.piece ≤ maxNameBytes := by
  have h := name.namesEntry
  simp only [FeatureDigest.namesEntry, Bool.and_eq_true, decide_eq_true_eq] at h
  exact h.2

instance : LT FileName := ⟨fun a b => comesBefore a.piece b.piece = true⟩

instance (a b : FileName) : Decidable (a < b) :=
  inferInstanceAs (Decidable (comesBefore a.piece b.piece = true))

theorem lt_iff {a b : FileName} : a < b ↔ comesBefore a.piece b.piece = true := Iff.rfl

theorem lt_irrefl (a : FileName) : ¬ a < a := by
  simp [lt_iff, comesBefore_irrefl]

theorem lt_trans {a b c : FileName} (hab : a < b) (hbc : b < c) : a < c :=
  comesBefore_trans hab hbc

/-- Of two names that are not ordered one way, the other is the case or they agree. -/
theorem lt_of_not_lt_of_ne {a b : FileName} (h : ¬ a < b) (hne : a ≠ b) : b < a := by
  rcases comesBefore_total a.piece b.piece with hab | hab | hab
  · exact absurd hab h
  · exact absurd (piece_injective hab) hne
  · exact hab

end FileName

/-- Where a file is: the names that lead to it from the top. -/
abbrev Place := List FileName

end FeatureDigest
