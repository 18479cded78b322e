import FeatureDigest.Json.Skip
import FeatureDigest.Json.Value

/-!
# Written JSON

What written values look like to a reader.  Each character of a text is written as an
escape or as itself, and read as that character (`readLiteral_escape`), so a literal is
read back whatever its text is (`readLiteral_flatMap_escape`).  The blanks of the layout
stand between tokens only.
-/

set_option autoImplicit false

namespace FeatureDigest.Json

/-! ## Literals -/

theorem readLiteral_plain {c : Char} (hquote : c ≠ '"') (hbackslash : c ≠ '\\')
    (hcontrol : ¬ c.toNat < 0x20) (rest : List Char) :
    readLiteral (c :: rest) = consText c (readLiteral rest) := by
  rw [readLiteral]
  · rw [if_neg hcontrol]
  all_goals simp [hquote, hbackslash]

theorem readLiteral_letter {letter c : Char} (h : letterEscape? letter = some c)
    (rest : List Char) :
    readLiteral ('\\' :: letter :: rest) = consText c (readLiteral rest) := by
  have hu : letter ≠ 'u' := by
    rintro rfl
    simp [letterEscape?] at h
  rw [readLiteral]
  · simp only [h]
  · simpa using hu

theorem readLiteral_unit {a b c d : Char} {unit : Nat} (h : unit? a b c d = some unit)
    (hleading : isLeading unit = false) (htrailing : isTrailing unit = false)
    (rest : List Char) :
    readLiteral ('\\' :: 'u' :: a :: b :: c :: d :: rest)
      = consText (Char.ofNat unit) (readLiteral rest) := by
  rw [readLiteral]
  simp [h, hleading, htrailing]

theorem hexValue?_hexDigit : ∀ value < 16, hexValue? (hexDigit value) = some value := by
  decide

theorem unit?_hexDigit {value : Nat} (h : value < 0x100) :
    unit? '0' '0' (hexDigit (value / 16)) (hexDigit (value % 16)) = some value := by
  have hzero : hexValue? '0' = some 0 := by decide
  have hhigh := hexValue?_hexDigit (value / 16) (by omega)
  have hlow := hexValue?_hexDigit (value % 16) (by omega)
  simp only [unit?, hzero, hhigh, hlow, Option.pure_def, Option.bind_eq_bind,
    Option.bind_some, Option.some.injEq]
  omega

/-- A character is written as a one-letter escape, by its number, or as it is. -/
theorem escapeLiteral_cases (c : Char) :
    (∃ letter, letterEscape? letter = some c ∧ escapeLiteral c = ['\\', letter]) ∨
      (c.toNat < 0x20 ∧ escapeLiteral c
        = ['\\', 'u', '0', '0', hexDigit (c.toNat / 16), hexDigit (c.toNat % 16)]) ∨
      (c ≠ '"' ∧ c ≠ '\\' ∧ ¬ c.toNat < 0x20 ∧ escapeLiteral c = [c]) := by
  unfold escapeLiteral
  split
  case h_8 hquote hbackslash _ _ _ _ _ =>
    split
    · rename_i hcontrol
      exact Or.inr (Or.inl ⟨hcontrol, rfl⟩)
    · rename_i hcontrol
      exact Or.inr (Or.inr ⟨hquote, hbackslash, hcontrol, rfl⟩)
  all_goals exact Or.inl ⟨_, rfl, rfl⟩

theorem readLiteral_escape (c : Char) (rest : List Char) :
    readLiteral (escapeLiteral c ++ rest) = consText c (readLiteral rest) := by
  rcases escapeLiteral_cases c with
    ⟨letter, hletter, heq⟩ | ⟨hcontrol, heq⟩ | ⟨hquote, hbackslash, hcontrol, heq⟩
  · rw [heq]
    exact readLiteral_letter hletter rest
  · have hsmall : c.toNat < 0x100 := by omega
    have hunit := unit?_hexDigit hsmall
    have hleading : isLeading c.toNat = false := by simp [isLeading]; omega
    have htrailing : isTrailing c.toNat = false := by simp [isTrailing]; omega
    rw [heq]
    simpa using readLiteral_unit hunit hleading htrailing rest
  · rw [heq]
    exact readLiteral_plain hquote hbackslash hcontrol rest

/-- What was written between quotes is read. -/
theorem readLiteral_flatMap_escape (content rest : List Char) :
    readLiteral (content.flatMap escapeLiteral ++ '"' :: rest) = .ok (content, rest) := by
  induction content with
  | nil => simp [readLiteral]
  | cons c content ih =>
    rw [List.flatMap_cons, List.append_assoc, readLiteral_escape, ih]
    rfl

/-! ## Blanks -/

theorem skipSpace_of_not_isSpace {c : Char} (h : isSpace c = false) (rest : List Char) :
    skipSpace (c :: rest) = c :: rest := by
  rw [skipSpace, List.dropWhile_cons_of_neg (by simp [h])]

theorem isSpace_of_mem_lineBreak {level : Nat} {c : Char} (h : c ∈ Value.lineBreak level) :
    isSpace c = true := by
  rcases List.mem_cons.1 h with rfl | hblank
  · rfl
  · rw [List.eq_of_mem_replicate hblank]
    rfl

theorem skipSpace_append {gap : List Char} (h : ∀ c ∈ gap, isSpace c = true)
    (text : List Char) : skipSpace (gap ++ text) = skipSpace text := by
  rw [skipSpace, skipSpace, List.dropWhile_append_of_pos h]

theorem skipSpace_lineBreak (level : Nat) (text : List Char) :
    skipSpace (Value.lineBreak level ++ text) = skipSpace text :=
  skipSpace_append (fun _ => isSpace_of_mem_lineBreak) text

/-! ## Values and members -/

theorem write_text_append (level : Nat) (content : String) (rest : List Char) :
    Value.write level (.text content) ++ rest
      = '"' :: (content.toList.flatMap escapeLiteral ++ '"' :: rest) := by
  simp [Value.write, writeLiteral]

theorem writeMember_append (level : Nat) (key : String) (value : Value) (rest : List Char) :
    Value.writeMember level (key, value) ++ rest
      = '"' :: (key.toList.flatMap escapeLiteral
        ++ '"' :: ':' :: ' ' :: (Value.write level value ++ rest)) := by
  simp [Value.writeMember, writeLiteral]

theorem length_le_writeElements (level : Nat) (values : List Value) :
    values.length ≤ (Value.writeElements level values).length := by
  induction values with
  | nil => exact Nat.le_refl 0
  | cons value values ih =>
    simp only [Value.writeElements, List.length_cons, List.length_append]
    omega

theorem length_le_writeMembers (level : Nat) (members : List (String × Value)) :
    members.length ≤ (Value.writeMembers level members).length := by
  induction members with
  | nil => exact Nat.le_refl 0
  | cons member members ih =>
    simp only [Value.writeMembers, List.length_cons, List.length_append]
    omega

end FeatureDigest.Json
