import FeatureDigest.Proofs.Json.Denoting

/-!
# What JSON values mean

Texts, numbers, lists and members as they are found in a value, if it is of the wanted type.  They
are found in written values (`text?_datum`, `items?_datum`, `member?_datum`), and the text of any
literal is what it denotes (`Datum.text?_eq_some_iff`).
-/

set_option autoImplicit false

namespace FeatureDigest.Json

namespace Datum

/-- The text that a literal stands for. -/
def text? : Datum → Option String
  | .literal spelling =>
    match readLiteral (spelling ++ ['"']) with
    | .ok (content, []) => some (String.ofList content)
    | _ => none
  | _ => none

/-- The number that digits stand for. -/
def count? : Datum → Option Nat
  | .numeral spelling =>
    if spelling.all Char.isDigit then some (Nat.ofDigitChars 10 spelling 0) else none
  | _ => none

/-- What the values of a list stand for. -/
def items? {α : Type} (item? : Datum → Option α) : Datum → Option (List α)
  | .list values => values.mapM item?
  | _ => none

/-- The value of the first member of an object with a key. -/
def member? (key : String) : Datum → Option Datum
  | .object members =>
    (members.find? fun member => (Datum.literal member.1).text? == some key).map Prod.snd
  | _ => none

end Datum

namespace Value

theorem text?_literal (content : String) :
    (Datum.literal (content.toList.flatMap escapeLiteral)).text? = some content := by
  simp only [Datum.text?, readLiteral_flatMap_escape, String.ofList_toList]

theorem text?_datum (content : String) : (text content).datum.text? = some content :=
  text?_literal content

theorem count?_datum (n : Nat) : (number n).datum.count? = some n := by
  have hdigits : (Nat.toDigits 10 n).all Char.isDigit = true :=
    List.all_eq_true.2 (isDigits_toDigits n).isDigit
  rw [datum, Datum.count?, if_pos hdigits, Nat.ofDigitChars_ten_toDigits]

theorem items?_datum {α : Type} {item? : Datum → Option α} {write : α → Value}
    (h : ∀ item, item? (write item).datum = some item) (items : List α) :
    (list (items.map write)).datum.items? item? = some items := by
  rw [datum, Datum.items?, data_eq_map]
  induction items with
  | nil => rfl
  | cons item items ih =>
    rw [List.map_cons, List.map_cons, List.mapM_cons, h, ih]
    rfl

theorem texts_datum (contents : List String) :
    (texts contents).datum.items? Datum.text? = some contents :=
  items?_datum text?_datum contents

/-- A member is found under its key. -/
theorem member?_datum (key : String) (members : List (String × Value)) :
    (object members).datum.member? key = (members.lookup key).map datum := by
  rw [datum, Datum.member?, memberData_eq_map]
  induction members with
  | nil => rfl
  | cons member members ih =>
    obtain ⟨name, value⟩ := member
    rw [List.map_cons, memberDatum, List.find?_cons, List.lookup_cons, text?_literal]
    by_cases hkey : key = name
    · simp [hkey]
    · have hname : (some name == some key) = false := by simpa using Ne.symm hkey
      have hlookup : (key == name) = false := by simpa using hkey
      rw [hname, hlookup]
      exact ih

end Value

/-! ## Literals of any spelling -/

theorem Datum.text?_of_denotes {spelling content : List Char} (h : Denotes spelling content) :
    (Datum.literal spelling).text? = some (String.ofList content) := by
  simp only [Datum.text?, readLiteral_of_denotes h]

theorem Datum.text?_of_unreadable {spelling : List Char} (h : Unreadable spelling) :
    (Datum.literal spelling).text? = none := by
  obtain ⟨fault, hfault⟩ := h []
  simp only [Datum.text?, hfault]

/-- The text of a literal is what it denotes. -/
theorem Datum.text?_eq_some_iff {spelling : List Char} (h : IsLiteral spelling)
    {content : String} :
    (Datum.literal spelling).text? = some content ↔ Denotes spelling content.toList := by
  constructor
  · intro htext
    rcases readLiteral_cases h with ⟨found, hfound⟩ | hunreadable
    · rw [Datum.text?_of_denotes hfound] at htext
      cases htext
      rwa [String.toList_ofList]
    · rw [Datum.text?_of_unreadable hunreadable] at htext
      cases htext
  · intro hdenotes
    rw [Datum.text?_of_denotes hdenotes, String.ofList_toList]

end FeatureDigest.Json
