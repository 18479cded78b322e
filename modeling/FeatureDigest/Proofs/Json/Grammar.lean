import FeatureDigest.Proofs.Json.Written

/-!
# The grammar of JSON

Which texts spell JSON values.  Numerals and literals are kept as they are spelled, since
not every numeral fits a type of numbers and not every literal is a text.  A written value
is spelled as the grammar wants it, whatever texts are in it (`spells_write`).
-/

set_option autoImplicit false

namespace FeatureDigest.Json

/-- A JSON value with its numerals and literals as they are spelled. -/
inductive Datum
  | null
  | boolean (value : Bool)
  | numeral (spelling : List Char)
  | literal (spelling : List Char)
  | list (values : List Datum)
  | object (members : List (List Char × Datum))

/-! ## Tokens -/

/-- Blanks that may stand between two tokens. -/
def IsGap (gap : List Char) : Prop := ∀ c ∈ gap, isSpace c = true

/-- What may stand between the quotes of a literal. -/
inductive IsLiteral : List Char → Prop
  | nil : IsLiteral []
  | plain {c : Char} {rest : List Char} (quote : c ≠ '"') (backslash : c ≠ '\\')
      (control : ¬ c.toNat < 0x20) (more : IsLiteral rest) : IsLiteral (c :: rest)
  | letter {letter c : Char} {rest : List Char} (escape : letterEscape? letter = some c)
      (more : IsLiteral rest) : IsLiteral ('\\' :: letter :: rest)
  | unit {a b c d : Char} {unit : Nat} {rest : List Char}
      (digits : unit? a b c d = some unit) (more : IsLiteral rest) :
      IsLiteral ('\\' :: 'u' :: a :: b :: c :: d :: rest)

/-- Decimal digits, at least one. -/
structure IsDigits (digits : List Char) : Prop where
  ne_nil : digits ≠ []
  isDigit : ∀ c ∈ digits, c.isDigit = true

/-- The integer part of a numeral: a zero, or digits that start with another one. -/
inductive IsWhole : List Char → Prop
  | zero : IsWhole ['0']
  | other {digits : List Char} (decimal : IsDigits digits) (lead : digits.head? ≠ some '0') :
      IsWhole digits

/-- The fraction of a numeral, if it has one. -/
inductive IsFraction : List Char → Prop
  | none : IsFraction []
  | some {digits : List Char} (decimal : IsDigits digits) : IsFraction ('.' :: digits)

/-- The exponent of a numeral, if it has one. -/
inductive IsExponent : List Char → Prop
  | none : IsExponent []
  | some {mark : Char} {sign digits : List Char} (starts : startsExponent mark = true)
      (signed : sign = [] ∨ sign = ['+'] ∨ sign = ['-']) (decimal : IsDigits digits) :
      IsExponent (mark :: (sign ++ digits))

/-- A numeral without its sign. -/
inductive IsMagnitude : List Char → Prop
  | parts {whole fraction exponent : List Char} (first : IsWhole whole)
      (second : IsFraction fraction) (third : IsExponent exponent) :
      IsMagnitude (whole ++ (fraction ++ exponent))

/-- A numeral. -/
inductive IsNumeral : List Char → Prop
  | positive {digits : List Char} (magnitude : IsMagnitude digits) : IsNumeral digits
  | negative {digits : List Char} (magnitude : IsMagnitude digits) : IsNumeral ('-' :: digits)

/-! ## Values -/

/-- Items with commas between them and gaps around them, at least one. -/
inductive Separated {α : Type} (Item : List Char → α → Prop) : List Char → List α → Prop
  | last {before text after : List Char} {item : α} (lead : IsGap before)
      (spelled : Item text item) (trail : IsGap after) :
      Separated Item (before ++ (text ++ after)) [item]
  | more {before text after rest : List Char} {item : α} {items : List α}
      (lead : IsGap before) (spelled : Item text item) (trail : IsGap after)
      (others : Separated Item rest items) :
      Separated Item (before ++ (text ++ (after ++ ',' :: rest))) (item :: items)

/-- A key, a colon and a value. -/
inductive Member (Value : List Char → Datum → Prop) :
    List Char → List Char × Datum → Prop
  | pair {key between before text : List Char} {value : Datum} (name : IsLiteral key)
      (middle : IsGap between) (lead : IsGap before) (spelled : Value text value) :
      Member Value ('"' :: (key ++ '"' :: (between ++ ':' :: (before ++ text)))) (key, value)

/-- A text spells a value. -/
inductive Spells : List Char → Datum → Prop
  | null : Spells ['n', 'u', 'l', 'l'] .null
  | yes : Spells ['t', 'r', 'u', 'e'] (.boolean true)
  | no : Spells ['f', 'a', 'l', 's', 'e'] (.boolean false)
  | numeral {spelling : List Char} (numeral : IsNumeral spelling) :
      Spells spelling (.numeral spelling)
  | literal {spelling : List Char} (literal : IsLiteral spelling) :
      Spells ('"' :: (spelling ++ ['"'])) (.literal spelling)
  | noValues {gap : List Char} (blank : IsGap gap) :
      Spells ('[' :: (gap ++ [']'])) (.list [])
  | values {body : List Char} {values : List Datum}
      (spelled : Separated Spells body values) : Spells ('[' :: (body ++ [']'])) (.list values)
  | noMembers {gap : List Char} (blank : IsGap gap) :
      Spells ('\x7b' :: (gap ++ ['\x7d'])) (.object [])
  | members {body : List Char} {members : List (List Char × Datum)}
      (spelled : Separated (Member Spells) body members) :
      Spells ('\x7b' :: (body ++ ['\x7d'])) (.object members)

/-! ## Written values -/

theorem isGap_nil : IsGap [] := by
  intro c hc
  cases hc

theorem isGap_blank : IsGap [' '] := by
  intro c hc
  rw [List.mem_singleton.1 hc]
  rfl

theorem isGap_lineBreak (level : Nat) : IsGap (Value.lineBreak level) :=
  fun _ => isSpace_of_mem_lineBreak

theorem isLiteral_escape (c : Char) {rest : List Char} (h : IsLiteral rest) :
    IsLiteral (escapeLiteral c ++ rest) := by
  rcases escapeLiteral_cases c with
    ⟨letter, hletter, heq⟩ | ⟨hcontrol, heq⟩ | ⟨hquote, hbackslash, hcontrol, heq⟩
  · rw [heq]
    exact .letter hletter h
  · have hsmall : c.toNat < 0x100 := by omega
    rw [heq]
    exact .unit (unit?_hexDigit hsmall) h
  · rw [heq]
    exact .plain hquote hbackslash hcontrol h

theorem isLiteral_flatMap_escape (content : List Char) :
    IsLiteral (content.flatMap escapeLiteral) := by
  induction content with
  | nil => exact .nil
  | cons c content ih =>
    rw [List.flatMap_cons]
    exact isLiteral_escape c ih

theorem isDigits_toDigits (n : Nat) : IsDigits (Nat.toDigits 10 n) :=
  ⟨Nat.toDigits_ne_nil, fun _ => Nat.isDigit_of_mem_toDigits (by decide) (by decide)⟩

/-- Only the numeral of zero starts with a zero. -/
theorem head?_toDigits {n : Nat} (h : n ≠ 0) : (Nat.toDigits 10 n).head? ≠ some '0' := by
  induction n using Nat.strongRecOn with
  | ind n ih =>
    rcases Nat.lt_or_ge n 10 with hsmall | hlarge
    · rw [Nat.toDigits_of_lt_base hsmall]
      have hdigit : ∀ digit < 10, digit ≠ 0 → [digit.digitChar].head? ≠ some '0' := by decide
      exact hdigit n hsmall h
    · have hless : n / 10 < n := by omega
      have hhigh := ih (n / 10) hless (by omega)
      obtain ⟨lead, digits, hlead⟩ := List.exists_cons_of_ne_nil
        (Nat.toDigits_ne_nil : Nat.toDigits 10 (n / 10) ≠ [])
      rw [Nat.toDigits_of_base_le (by decide) hlarge, hlead]
      rw [hlead] at hhigh
      exact hhigh

theorem isWhole_toDigits (n : Nat) : IsWhole (Nat.toDigits 10 n) := by
  by_cases hzero : n = 0
  · rw [hzero]
    exact .zero
  · exact .other (isDigits_toDigits n) (head?_toDigits hzero)

theorem isNumeral_toDigits (n : Nat) : IsNumeral (Nat.toDigits 10 n) := by
  have hparts := IsMagnitude.parts (isWhole_toDigits n) .none .none
  rw [List.append_nil, List.append_nil] at hparts
  exact .positive hparts

namespace Value

mutual

/-- What a value is to a reader of its text. -/
def datum : Value → Datum
  | .number n => .numeral (Nat.toDigits 10 n)
  | .text content => .literal (content.toList.flatMap escapeLiteral)
  | .list values => .list (data values)
  | .object members => .object (memberData members)

/-- What some values are to a reader. -/
def data : List Value → List Datum
  | [] => []
  | value :: values => value.datum :: data values

/-- What a member is to a reader. -/
def memberDatum : String × Value → List Char × Datum
  | (key, value) => (key.toList.flatMap escapeLiteral, value.datum)

/-- What some members are to a reader. -/
def memberData : List (String × Value) → List (List Char × Datum)
  | [] => []
  | member :: members => memberDatum member :: memberData members

end

theorem data_eq_map (values : List Value) : data values = values.map datum := by
  induction values with
  | nil => rfl
  | cons value values ih => rw [data, ih, List.map_cons]

theorem memberData_eq_map (members : List (String × Value)) :
    memberData members = members.map memberDatum := by
  induction members with
  | nil => rfl
  | cons member members ih => rw [memberData, ih, List.map_cons]

/-- What holds of numbers and texts, of a list when it holds of its values, and of an object
when it holds of the values of its members, holds of every value. -/
theorem induction {motive : Value → Prop} (number : ∀ n, motive (.number n))
    (text : ∀ content, motive (.text content))
    (list : ∀ values, (∀ value ∈ values, motive value) → motive (.list values))
    (object : ∀ members, (∀ member ∈ members, motive member.2) → motive (.object members))
    (value : Value) : motive value := by
  induction hsize : sizeOf value using Nat.strongRecOn generalizing value with
  | ind size ih =>
    cases value with
    | number n => exact number n
    | text content => exact text content
    | list values =>
      apply list values
      intro value hvalue
      have hless := List.sizeOf_lt_of_mem hvalue
      rw [Value.list.sizeOf_spec] at hsize
      exact ih (sizeOf value) (by omega) value rfl
    | object members =>
      apply object members
      intro member hmember
      have hless := List.sizeOf_lt_of_mem hmember
      have hvalue : sizeOf member = 1 + sizeOf member.1 + sizeOf member.2 :=
        Prod.mk.sizeOf_spec member.1 member.2
      rw [Value.object.sizeOf_spec] at hsize
      exact ih (sizeOf member.2) (by omega) member.2 rfl

theorem writeElements_eq (level : Nat) (values : List Value) :
    writeElements level values
      = values.flatMap fun value => ',' :: (lineBreak level ++ write level value) := by
  induction values with
  | nil => rfl
  | cons value values ih =>
    rw [writeElements, ih, List.flatMap_cons, List.cons_append]

theorem writeMembers_eq (level : Nat) (members : List (String × Value)) :
    writeMembers level members
      = members.flatMap fun member => ',' :: (lineBreak level ++ writeMember level member) := by
  induction members with
  | nil => rfl
  | cons member members ih =>
    rw [writeMembers, ih, List.flatMap_cons, List.cons_append]

/-- Items that are written one a line are separated. -/
theorem separated_lines {α β : Type} {Item : List Char → β → Prop} {spell : α → List Char}
    {datum : α → β} (level outer : Nat) {first : α} {items : List α}
    (h : ∀ item ∈ first :: items, Item (spell item) (datum item)) :
    Separated Item
      (lineBreak level ++ (spell first
        ++ ((items.flatMap fun item => ',' :: (lineBreak level ++ spell item))
          ++ lineBreak outer)))
      ((first :: items).map datum) := by
  induction items generalizing first with
  | nil =>
    exact .last (isGap_lineBreak level) (h first List.mem_cons_self) (isGap_lineBreak outer)
  | cons second items ih =>
    have hrest := ih fun item hitem => h item (List.mem_cons_of_mem first hitem)
    have hmore := Separated.more (isGap_lineBreak level) (h first List.mem_cons_self)
      isGap_nil hrest
    simpa using hmore

theorem member_write {level : Nat} {key : String} {value : Value}
    (h : Spells (write level value) value.datum) :
    Member Spells (writeMember level (key, value)) (memberDatum (key, value)) := by
  have hpair := Member.pair (isLiteral_flatMap_escape key.toList) isGap_nil isGap_blank h
  simpa [writeMember, writeLiteral, memberDatum] using hpair

/-- Every value is written as the grammar wants it. -/
theorem spells_write (level : Nat) (value : Value) :
    Spells (write level value) value.datum := by
  induction value using Value.induction generalizing level with
  | number n => exact .numeral (isNumeral_toDigits n)
  | text content => exact .literal (isLiteral_flatMap_escape content.toList)
  | list values ih =>
    cases values with
    | nil => exact .noValues isGap_nil
    | cons value values =>
      have hitems : Separated Spells _ ((value :: values).map datum) :=
        separated_lines (level + 1) level fun item hitem => ih item hitem (level + 1)
      have hlist := Spells.values hitems
      rw [datum, data_eq_map, write, writeElements_eq]
      simpa using hlist
  | object members ih =>
    cases members with
    | nil => exact .noMembers isGap_nil
    | cons member members =>
      have hitems : Separated (Member Spells) _ ((member :: members).map memberDatum) :=
        separated_lines (level + 1) level
          fun item hitem => member_write (ih item hitem (level + 1))
      have hobject := Spells.members hitems
      rw [datum, memberData_eq_map, write, writeMembers_eq]
      simpa using hobject

end Value

end FeatureDigest.Json
