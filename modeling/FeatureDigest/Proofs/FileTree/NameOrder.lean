import FeatureDigest.FileTree.Name

/-!
# The order of names

Names are ordered by code point.  This is the order of their bytes in UTF-8, so that a
listing in the order of names is one in the order of bytes.
-/

set_option autoImplicit false

namespace FeatureDigest

/-- The bytes of a piece in UTF-8. -/
def pieceBytes (piece : Piece) : List UInt8 := piece.flatMap String.utf8EncodeChar

/-- The bytes of a name in UTF-8. -/
def FileName.bytes (name : FileName) : List UInt8 := pieceBytes name.piece

/-- The smaller number is smaller above its last digit, or agrees there and has the
smaller last digit. -/
theorem digit_lt {m n : Nat} (h : m < n) :
    m / 64 < n / 64 ∨ (m / 64 = n / 64 ∧ m % 64 < n % 64) := by
  omega

/-- The four digits of numbers that are ordered are ordered from the highest on. -/
theorem digits_lt {m n : Nat} (h : m < n) :
    m / 262144 < n / 262144 ∨ (m / 262144 = n / 262144 ∧
      (m / 4096 % 64 < n / 4096 % 64 ∨ (m / 4096 % 64 = n / 4096 % 64 ∧
        (m / 64 % 64 < n / 64 % 64 ∨ (m / 64 % 64 = n / 64 % 64 ∧ m % 64 < n % 64))))) := by
  have hnext (k : Nat) : k / 64 / 64 = k / 4096 := Nat.div_div_eq_div_mul k 64 64
  have hfirst (k : Nat) : k / 4096 / 64 = k / 262144 := Nat.div_div_eq_div_mul k 4096 64
  rcases digit_lt h with hsixth | ⟨hsixth, hlast⟩
  · rcases digit_lt hsixth with hthird | ⟨hthird, hlast⟩
    · rw [hnext, hnext] at hthird
      rcases digit_lt hthird with hlead | ⟨hlead, hlast⟩
      · rw [hfirst, hfirst] at hlead
        exact Or.inl hlead
      · rw [hfirst, hfirst] at hlead
        exact Or.inr ⟨hlead, Or.inl hlast⟩
    · rw [hnext, hnext] at hthird
      have hlead : m / 262144 = n / 262144 := by rw [← hfirst, ← hfirst, hthird]
      rw [hthird]
      exact Or.inr ⟨hlead, Or.inr ⟨rfl, Or.inl hlast⟩⟩
  · have hthird : m / 4096 = n / 4096 := by rw [← hnext, ← hnext, hsixth]
    have hlead : m / 262144 = n / 262144 := by rw [← hfirst, ← hfirst, hthird]
    rw [hsixth, hthird]
    exact Or.inr ⟨hlead, Or.inr ⟨rfl, Or.inr ⟨rfl, hlast⟩⟩⟩

/-- Of two characters the one with the smaller code point has the smaller bytes, whatever
follows them.  A longer encoding starts with a larger byte, and encodings of one length
hold the digits of the code point from the highest on. -/
theorem utf8EncodeChar_append_lt {c d : Char} (h : c.toNat < d.toNat)
    (first second : List UInt8) :
    String.utf8EncodeChar c ++ first < String.utf8EncodeChar d ++ second := by
  have hd : d.toNat ≤ 0x10ffff := by
    have hvalid := d.valid
    simp only [UInt32.isValidChar, Nat.isValidChar] at hvalid
    change d.val.toNat ≤ 0x10ffff
    omega
  change c.val.toNat < d.val.toNat at h
  change d.val.toNat ≤ 0x10ffff at hd
  unfold String.utf8EncodeChar
  generalize c.val.toNat = m at h
  generalize d.val.toNat = n at h hd
  have hdigits := digits_lt h
  -- No sum of a digit and its mark leaves the byte, and the highest digit is below eight.
  have hlow (k : Nat) : (k % 64 + 128) % 256 = k % 64 + 128 := by omega
  have htwo (k : Nat) : (k % 32 + 192) % 256 = k % 32 + 192 := by omega
  have hthree (k : Nat) : (k % 16 + 224) % 256 = k % 16 + 224 := by omega
  have hm : (m / 262144 % 8 + 240) % 256 = m / 262144 + 240 := by omega
  have hn : (n / 262144 % 8 + 240) % 256 = n / 262144 + 240 := by omega
  dsimp only
  repeat' split
  all_goals
    simp only [List.cons_append, List.nil_append, List.cons_lt_cons_iff,
      UInt8.lt_iff_toNat_lt, ← UInt8.toNat_inj, UInt8.toNat_ofNat', Nat.reducePow, hlow,
      htwo, hthree, hm, hn]
    omega

theorem pieceBytes_lt_of_comesBefore {a b : Piece} (h : comesBefore a b = true) :
    pieceBytes a < pieceBytes b := by
  induction a generalizing b with
  | nil =>
    cases b with
    | nil => simp [comesBefore] at h
    | cons d b =>
      have hne : pieceBytes (d :: b) ≠ [] := by
        simp [pieceBytes, String.utf8EncodeChar_ne_nil]
      obtain ⟨byte, bytes, hbytes⟩ := List.exists_cons_of_ne_nil hne
      rw [hbytes]
      exact List.nil_lt_cons byte bytes
  | cons c a ih =>
    cases b with
    | nil => simp [comesBefore] at h
    | cons d b =>
      simp only [comesBefore, Bool.or_eq_true, Bool.and_eq_true, decide_eq_true_eq,
        beq_iff_eq] at h
      unfold pieceBytes
      rw [List.flatMap_cons, List.flatMap_cons]
      rcases h with hlt | ⟨heq, hrest⟩
      · exact utf8EncodeChar_append_lt hlt _ _
      · rw [Char.toNat_inj.1 heq]
        exact List.append_left_lt (ih hrest)

/-- The order of names is the order of their bytes. -/
theorem FileName.lt_iff_bytes_lt {a b : FileName} : a < b ↔ a.bytes < b.bytes := by
  constructor
  · intro h
    exact pieceBytes_lt_of_comesBefore h
  · intro h
    rcases comesBefore_total a.piece b.piece with hab | hab | hba
    · exact hab
    · rw [FileName.piece_injective hab] at h
      exact absurd h (List.lt_irrefl _)
    · have hlt : b.bytes < a.bytes := pieceBytes_lt_of_comesBefore hba
      exact absurd (List.lt_trans h hlt) (List.lt_irrefl _)

end FeatureDigest
