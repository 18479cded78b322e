import FeatureDigest.Proofs.Json.Grammar
import FeatureDigest.Proofs.Text.Plain

/-!
# JSON texts and messages without escape characters

A written value has no escape character, whatever texts are in it
(`escape_not_mem_write`).  The message of a fault has none when no name in it has one
(`Fault.plain_message`): literals that a message shows are quoted.
-/

set_option autoImplicit false

namespace FeatureDigest.Json

open Text (escape Plain)

/-! ## Written values -/

theorem escape_not_mem_escapeLiteral (c : Char) : escape ∉ escapeLiteral c := by
  have hdigit : ∀ value < 16, hexDigit value ≠ escape := by decide
  rcases escapeLiteral_cases c with
    ⟨letter, hletter, heq⟩ | ⟨hcontrol, heq⟩ | ⟨_, _, hshown, heq⟩
  · rw [heq]
    intro hmem
    rcases List.mem_cons.1 hmem with hslash | hmem
    · exact absurd hslash (by decide)
    · rw [← List.mem_singleton.1 hmem] at hletter
      exact absurd hletter (by simp [letterEscape?, escape])
  · have hhigh := (hdigit (c.toNat / 16) (by omega)).symm
    have hlow := (hdigit (c.toNat % 16) (by omega)).symm
    have hopening : escape ∉ ['\\', 'u', '0', '0'] := by decide
    have hwhole : escapeLiteral c
        = ['\\', 'u', '0', '0'] ++ [hexDigit (c.toNat / 16), hexDigit (c.toNat % 16)] := heq
    rw [hwhole, List.mem_append, not_or]
    exact ⟨hopening, by simp [hhigh, hlow]⟩
  · rw [heq, List.mem_singleton]
    rintro rfl
    exact hshown (by decide)

theorem escape_not_mem_writeLiteral (text : List Char) : escape ∉ writeLiteral text := by
  rw [writeLiteral, List.mem_cons, List.mem_append, List.mem_flatMap]
  rintro (hquote | ⟨c, _, hc⟩ | hquote)
  · exact absurd hquote (by decide)
  · exact escape_not_mem_escapeLiteral c hc
  · exact absurd hquote (by decide)

namespace Value

theorem escape_not_mem_lineBreak (level : Nat) : escape ∉ lineBreak level := by
  intro hmem
  exact absurd (isSpace_of_mem_lineBreak hmem) (by decide)

theorem escape_not_mem_lines {α : Type} (spell : α → List Char) (level outer : Nat)
    {first : α} {items : List α} (h : ∀ item ∈ first :: items, escape ∉ spell item) :
    escape ∉ lineBreak level ++ spell first
      ++ (items.flatMap fun item => ',' :: (lineBreak level ++ spell item))
      ++ lineBreak outer := by
  simp only [List.mem_append, List.mem_flatMap, List.mem_cons, not_or, not_exists, not_and]
  have hbreak := escape_not_mem_lineBreak
  refine ⟨⟨⟨hbreak level, h first List.mem_cons_self⟩, ?_⟩, hbreak outer⟩
  intro item hitem
  exact ⟨by decide, hbreak level, h item (List.mem_cons_of_mem first hitem)⟩

/-- No escape character is written. -/
theorem escape_not_mem_write (level : Nat) (value : Value) : escape ∉ write level value := by
  induction value using Value.induction generalizing level with
  | number n => exact Text.escape_not_mem_decimal n
  | text content => exact escape_not_mem_writeLiteral content.toList
  | list values ih =>
    cases values with
    | nil =>
      rw [write]
      decide
    | cons value values =>
      have hlines := escape_not_mem_lines (write (level + 1)) (level + 1) level
        fun item hitem => ih item hitem (level + 1)
      rw [write, writeElements_eq, List.mem_cons, List.mem_append, not_or, not_or]
      exact ⟨by decide, hlines, by decide⟩
  | object members ih =>
    cases members with
    | nil =>
      rw [write]
      decide
    | cons member members =>
      have hmember : ∀ item ∈ member :: members, escape ∉ writeMember (level + 1) item := by
        rintro ⟨key, value⟩ hitem
        rw [writeMember, List.mem_append, List.mem_append, not_or, not_or]
        exact ⟨⟨escape_not_mem_writeLiteral key.toList, by decide⟩, ih _ hitem (level + 1)⟩
      have hlines := escape_not_mem_lines (writeMember (level + 1)) (level + 1) level hmember
      rw [write, writeMembers_eq, List.mem_cons, List.mem_append, not_or, not_or]
      exact ⟨by decide, hlines, by decide⟩

theorem plain_render (value : Value) : Plain value.render :=
  Text.plain_ofList.2 (escape_not_mem_write 0 value)

end Value

/-! ## Messages -/

theorem escape_not_mem_significant (digits : Nat) : escape ∉ Decimal.significant digits := by
  intro hmem
  rw [Decimal.significant, List.mem_reverse] at hmem
  have hdigit := List.mem_reverse.1 ((List.dropWhile_sublist _).mem hmem)
  exact Text.escape_not_mem_decimal digits hdigit

theorem escape_not_mem_floatText (negative : Bool) (magnitude : Decimal.Magnitude) :
    escape ∉ floatText negative magnitude := by
  have hdigits := escape_not_mem_significant (Decimal.shortest magnitude).digits
  have hzeros (count : Nat) : escape ∉ List.replicate count '0' := fun hmem =>
    absurd (List.eq_of_mem_replicate hmem) (by decide)
  have hmarks : escape ≠ '-' ∧ escape ≠ '+' ∧ escape ≠ '.' ∧ escape ≠ 'e' ∧ escape ≠ '0' := by
    decide
  obtain ⟨hminus, hplus, hpoint, he, hzero⟩ := hmarks
  unfold floatText
  dsimp only
  generalize Decimal.significant (Decimal.shortest magnitude).digits = digits at hdigits ⊢
  have htake (count : Nat) : escape ∉ digits.take count := fun hmem =>
    hdigits (List.mem_of_mem_take hmem)
  have hdrop (count : Nat) : escape ∉ digits.drop count := fun hmem =>
    hdigits (List.mem_of_mem_drop hmem)
  -- Each way of writing it puts digits, zeros and marks together.
  repeat' split
  all_goals
    simp only [List.mem_append, List.mem_cons, List.not_mem_nil, hdigits, htake, hdrop, hzeros,
      Text.escape_not_mem_decimal, hminus, hplus, hpoint, he, hzero, or_self, not_false_eq_true]

theorem Found.plain_message (found : Found) : Plain found.message := by
  cases found with
  | null => decide
  | boolean value => cases value <;> decide
  | integer value => exact (Plain.append (by decide) (Text.plain_int value)).append (by decide)
  | float negative magnitude =>
    have htext := Text.plain_ofList.2 (escape_not_mem_floatText negative magnitude)
    exact (Plain.append (by decide) htext).append (by decide)
  | literal text => exact Plain.append (by decide) (Text.plain_quoted _)
  | list => decide
  | object => decide

/-- No name that the message shows has an escape character. -/
def Cause.Plain : Cause → Prop
  | .unknownFormat name => escape ∉ name
  | .duplicateField name => Text.Plain name
  | _ => True

theorem Cause.plain_message {cause : Cause} (h : cause.Plain) : Text.Plain cause.message := by
  cases cause with
  | wrongType found wanted =>
    have hwanted : Text.Plain wanted.message := by cases wanted <;> decide
    exact ((Text.Plain.append (by decide) found.plain_message).append (by decide)).append hwanted
  | unknownFormat name =>
    exact (Text.Plain.append (by decide) (Text.plain_ofList.2 h)).append (by decide)
  | duplicateField name => exact (Text.Plain.append (by decide) h).append (by decide)
  | _ => exact Text.plain_ofList.2 (by decide)

theorem Fault.plain_message {fault : Fault} (h : fault.cause.Plain) (text : List Char) :
    Plain (fault.message text) :=
  (((Cause.plain_message h).append (by decide)).append (Text.plain_nat _)).append
    (by decide) |>.append (Text.plain_nat _)

end FeatureDigest.Json
