import FeatureDigest.Json.Fault

/-!
# Numbers of JSON texts

A number that is used is read to its value: an integer when it has neither fraction
nor exponent and fits 64 bits, a floating point number otherwise.  Of a long
number the leading digits that fit 64 bits count; later ones only move the
exponent.  A number that is only skipped may be out of range.
-/

set_option autoImplicit false

namespace FeatureDigest.Json

open FeatureDigest.Decimal (Magnitude)

/-- The value of a decimal digit. -/
def digitValue (c : Char) : Nat := c.toNat - '0'.toNat

/-- The digits that a text starts with, and the rest. -/
def takeDigits (text : List Char) : List Char × List Char :=
  (text.takeWhile Char.isDigit, text.dropWhile Char.isDigit)

/-! ## Significands -/

/-- The greatest significand. -/
def greatestSignificand : Nat := Nat.pow 2 64 - 1

/-- A number under way: `significand * 10 ^ exponent`. -/
structure Parts where
  significand : Nat
  exponent : Int
  deriving DecidableEq, Repr

/-- Integer digits: from the first digit on that does not fit, each only raises
the exponent. -/
def Parts.integer (digits : List Char) : Parts :=
  digits.foldl (fun parts c =>
    let next := parts.significand * 10 + digitValue c
    if parts.exponent = 0 ∧ next ≤ greatestSignificand then ⟨next, 0⟩
    else ⟨parts.significand, parts.exponent + 1⟩) ⟨0, 0⟩

/-- Fraction digits: from the first digit on that does not fit, none counts. -/
def Parts.withFraction (parts : Parts) : List Char → Parts
  | [] => parts
  | c :: digits =>
    let next := parts.significand * 10 + digitValue c
    if next ≤ greatestSignificand then
      withFraction ⟨next, parts.exponent - 1⟩ digits
    else parts

/-- Divides by `10 ^ 308` until the exponent is at least `-308`.  Two divisions take
every significand to zero. -/
def scaleDown : (divisions : Nat) → Magnitude → Int → Option Magnitude
  | 0, _, _ => some .zero
  | divisions + 1, x, exponent =>
    if exponent.natAbs ≤ 308 then
      if 0 ≤ exponent then x.mul? (.powerOfTen exponent.toNat)
      else x.div? (.powerOfTen exponent.natAbs)
    else if x.mantissa = 0 then some x
    else if 0 ≤ exponent then none
    else (x.div? (.powerOfTen 308)).bind fun x => scaleDown divisions x (exponent + 308)

/-- The magnitude of a number, rounded at each step; `none` when it is too large. -/
def Parts.magnitude? (parts : Parts) : Option Magnitude :=
  (Magnitude.round? parts.significand 1).bind fun x => scaleDown 4 x parts.exponent

/-! ## Reading -/

/-- A floating point number from its parts, the text after it being `rest`. -/
def floatOf (negative : Bool) (parts : Parts) (rest : List Char) :
    Except Fault (Found × List Char) :=
  match parts.magnitude? with
  | some magnitude => .ok (.float negative magnitude, rest)
  | none => .error ⟨.numberTooLarge, rest, 0⟩

/-- The greatest exponent that is read to its end. -/
def greatestExponent : Nat := Nat.pow 2 31 - 1

/-- Reads exponent digits; `none` and the text after the digit that exceeds the
greatest exponent. -/
def readExponent : (exponent : Nat) → List Char → Option Nat × List Char
  | exponent, [] => (some exponent, [])
  | exponent, c :: rest =>
    if c.isDigit then
      let next := exponent * 10 + digitValue c
      if next ≤ greatestExponent then readExponent next rest else (none, rest)
    else (some exponent, c :: rest)

/-- The sign of an exponent, and the rest. -/
def takeSign : List Char → Bool × List Char
  | '+' :: rest => (false, rest)
  | '-' :: rest => (true, rest)
  | rest => (false, rest)

/-- Reads what follows the `e` of a number. -/
def readScaled (negative : Bool) (parts : Parts) (text : List Char) :
    Except Fault (Found × List Char) :=
  let (down, text) := takeSign text
  match text with
  | [] => .error ⟨.endInValue, [], 0⟩
  | c :: rest =>
    if c.isDigit then
      match readExponent (digitValue c) rest with
      | (some exponent, rest) =>
        let shift : Int := if down then -(exponent : Int) else exponent
        floatOf negative ⟨parts.significand, parts.exponent + shift⟩ rest
      | (none, rest) =>
        if parts.significand ≠ 0 ∧ down = false then .error ⟨.numberTooLarge, rest, 0⟩
        else .ok (.float negative .zero, (takeDigits rest).2)
    else .error ⟨.badNumber, c :: rest, 1⟩

/-- The text starts an exponent. -/
def startsExponent (c : Char) : Bool := c == 'e' || c == 'E'

/-- Reads what follows the digits of a number with a fraction. -/
def readFloatEnd (negative : Bool) (parts : Parts) (text : List Char) :
    Except Fault (Found × List Char) :=
  match text with
  | c :: rest =>
    if startsExponent c then readScaled negative parts rest
    else floatOf negative parts (c :: rest)
  | [] => floatOf negative parts []

/-- Reads what follows the integer digits of a number. -/
def readNumberEnd (negative : Bool) (parts : Parts) (text : List Char) :
    Except Fault (Found × List Char) :=
  match text with
  | '.' :: rest =>
    match takeDigits rest with
    | ([], []) => .error ⟨.endInValue, [], 0⟩
    | ([], rest) => .error ⟨.badNumber, rest, 1⟩
    | (digits, rest) => readFloatEnd negative (parts.withFraction digits) rest
  | text =>
    if parts.exponent = 0 ∧ (text.head?.map startsExponent).getD false = false then
      let value := parts.significand
      if negative = false then .ok (.integer value, text)
      else if value = 0 ∨ Nat.pow 2 63 < value then floatOf true parts text
      else .ok (.integer (-value), text)
    else readFloatEnd negative parts text

/-- Reads a number after its sign. -/
def readNumber (negative : Bool) : Reader Found
  | [] => .error ⟨.endInValue, [], 0⟩
  | '0' :: rest =>
    if (rest.head?.map Char.isDigit).getD false then .error ⟨.badNumber, rest, 1⟩
    else readNumberEnd negative ⟨0, 0⟩ rest
  | c :: rest =>
    if c.isDigit then
      let (digits, rest) := takeDigits (c :: rest)
      readNumberEnd negative (Parts.integer digits) rest
    else .error ⟨.badNumber, c :: rest, 1⟩

/-! ## Skipping -/

/-- Skips what follows the `e` of a number. -/
def skipScaled (text : List Char) : Except Fault (List Char) :=
  match (takeSign text).2 with
  | [] => .error ⟨.badNumber, [], 0⟩
  | c :: rest =>
    if c.isDigit then .ok (takeDigits rest).2 else .error ⟨.badNumber, c :: rest, 1⟩

/-- Skips an exponent, if one follows. -/
def skipExponent : List Char → Except Fault (List Char)
  | [] => .ok []
  | c :: rest => if startsExponent c then skipScaled rest else .ok (c :: rest)

/-- Skips what follows the integer digits of a number. -/
def skipNumberEnd : List Char → Except Fault (List Char)
  | '.' :: rest =>
    match takeDigits rest with
    | ([], rest) => .error ⟨.badNumber, rest, 1⟩
    | (_, rest) => skipExponent rest
  | text => skipExponent text

/-- Skips a number after its sign. -/
def skipNumber : List Char → Except Fault (List Char)
  | [] => .error ⟨.badNumber, [], 0⟩
  | '0' :: rest =>
    if (rest.head?.map Char.isDigit).getD false then .error ⟨.badNumber, rest, 1⟩
    else skipNumberEnd rest
  | c :: rest =>
    if c.isDigit then skipNumberEnd (takeDigits rest).2
    else .error ⟨.badNumber, c :: rest, 1⟩

end FeatureDigest.Json
