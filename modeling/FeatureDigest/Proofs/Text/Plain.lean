import FeatureDigest.Text.Quoted
import FeatureDigest.Text.Styled

/-!
# Texts without escape characters

Which of the texts that the program puts together have no escape character in them: numbers
(`plain_nat`), and everything between quotes, whatever is quoted (`plain_quoted`).
-/

set_option autoImplicit false

namespace FeatureDigest.Text

/-- The text has no escape character. -/
def Plain (text : String) : Prop := escape ∉ text.toList

instance (text : String) : Decidable (Plain text) :=
  inferInstanceAs (Decidable (escape ∉ text.toList))

theorem Plain.append {first second : String} (hfirst : Plain first) (hsecond : Plain second) :
    Plain (first ++ second) := by
  unfold Plain
  rw [String.toList_append, List.mem_append, not_or]
  exact ⟨hfirst, hsecond⟩

theorem plain_ofList {text : List Char} : Plain (String.ofList text) ↔ escape ∉ text := by
  unfold Plain
  rw [String.toList_ofList]

theorem plain_empty : Plain "" := List.not_mem_nil

theorem plain_blank : Plain " " := by decide

theorem plain_colon : Plain ": " := by decide

theorem Plain.ite {first second : String} {condition : Prop} [Decidable condition]
    (hfirst : Plain first) (hsecond : Plain second) :
    Plain (if condition then first else second) := by
  split
  · exact hfirst
  · exact hsecond

theorem plain_intercalate {separator : String} {texts : List String}
    (hseparator : Plain separator) (h : ∀ text ∈ texts, Plain text) :
    Plain (separator.intercalate texts) := by
  induction texts with
  | nil => exact plain_empty
  | cons text texts ih =>
    obtain ⟨htext, htexts⟩ := List.forall_mem_cons.1 h
    cases texts with
    | nil =>
      rw [String.intercalate_singleton]
      exact htext
    | cons next texts =>
      rw [String.intercalate_cons_cons]
      exact (htext.append hseparator).append (ih htexts)

/-! ## Numbers -/

theorem digitChar_ne_escape : ∀ digit < 16, Nat.digitChar digit ≠ escape := by decide

theorem escape_not_mem_toDigitsCore {base : Nat} (hpos : 0 < base) (hbase : base ≤ 16)
    (fuel number : Nat) {digits : List Char} (h : escape ∉ digits) :
    escape ∉ Nat.toDigitsCore base fuel number digits := by
  induction fuel generalizing number digits with
  | zero => exact h
  | succ fuel ih =>
    have hdigit : number % base < 16 := Nat.lt_of_lt_of_le (Nat.mod_lt number hpos) hbase
    have hmore : escape ∉ Nat.digitChar (number % base) :: digits := by
      rw [List.mem_cons, not_or]
      exact ⟨(digitChar_ne_escape _ hdigit).symm, h⟩
    unfold Nat.toDigitsCore
    dsimp only
    split
    · exact hmore
    · exact ih _ hmore

theorem escape_not_mem_toDigits {base : Nat} (hpos : 0 < base) (hbase : base ≤ 16)
    (number : Nat) : escape ∉ Nat.toDigits base number :=
  escape_not_mem_toDigitsCore hpos hbase (number + 1) number List.not_mem_nil

theorem escape_not_mem_decimal (number : Nat) : escape ∉ Nat.toDigits 10 number :=
  escape_not_mem_toDigits (by decide) (by decide) number

theorem plain_nat (number : Nat) : Plain (toString number) := by
  unfold Plain
  rw [Nat.toString_eq_repr, Nat.toList_repr]
  exact escape_not_mem_decimal number

theorem plain_int (number : Int) : Plain (toString number) := by
  cases number with
  | ofNat number => exact plain_nat number
  | negSucc number => exact Plain.append (by decide) (plain_nat (number + 1))

/-! ## Quotes -/

theorem escape_not_mem_escapeQuoted (c : Char) : escape ∉ escapeQuoted c := by
  unfold escapeQuoted
  split
  all_goals try decide
  split
  · have hdigits : escape ∉ Nat.toDigits 16 c.toNat :=
      escape_not_mem_toDigits (by decide) (by decide) c.toNat
    have hopening : escape ∉ ['\\', 'u', '\x7b'] := by decide
    have hclosing : escape ∉ ['\x7d'] := by decide
    simp only [List.mem_append, hopening, hdigits, hclosing, or_self, not_false_eq_true]
  · rename_i hshown
    rw [List.mem_singleton]
    rintro rfl
    exact hshown (by decide)

/-- Nothing between quotes is an escape character: it does not show. -/
theorem plain_quoted (text : String) : Plain (quoted text) := by
  rw [quoted, plain_ofList, List.mem_cons, List.mem_append, List.mem_flatMap]
  rintro (hquote | ⟨c, _, hc⟩ | hquote)
  · exact absurd hquote (by decide)
  · exact escape_not_mem_escapeQuoted c hc
  · exact absurd hquote (by decide)

end FeatureDigest.Text
