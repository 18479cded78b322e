import FeatureDigest.Decimal.Shortest
import FeatureDigest.Text.Quoted

/-!
# Faults in JSON texts

A fault is why a text could not be read, and where this was noticed: the text that
was left, and how many bytes of it already count as read.  The place is worked out
from that only when the fault is reported.
-/

set_option autoImplicit false

namespace FeatureDigest.Json

open FeatureDigest.Decimal (Magnitude)

/-- A value of a type that was not asked for, as far as messages show it. -/
inductive Found
  | null
  | boolean (value : Bool)
  | integer (value : Int)
  | float (negative : Bool) (magnitude : Magnitude)
  | literal (text : List Char)
  | list
  | object
  deriving DecidableEq, Repr

/-- The type of value that was asked for. -/
inductive Wanted
  | config
  | text
  | list
  | null
  deriving DecidableEq, Repr

/-- Why a text could not be read. -/
inductive Cause
  | endInValue
  | endInList
  | endInObject
  | endInText
  | expectedValue
  | expectedWord
  | expectedColon
  | expectedObjectEnd
  | expectedListEnd
  | keyNotText
  | trailingComma
  | trailingText
  | badNumber
  | numberTooLarge
  | badEscape
  | controlCharacter
  | loneSurrogate
  | unpairedSurrogate
  | wrongType (found : Found) (wanted : Wanted)
  | unknownFormat (name : List Char)
  | duplicateField (name : String)
  deriving DecidableEq, Repr

/-- A cause, the text that was left, and the bytes of it that count as read. -/
structure Fault where
  cause : Cause
  rest : List Char
  taken : Nat
  deriving DecidableEq, Repr

/-- A reader takes a value from the start of a text and leaves the rest. -/
abbrev Reader (α : Type) : Type := List Char → Except Fault (α × List Char)

/-! ## Wording -/

/-- The text of a floating point number.  From `10 ^ -5` up to but not including
`10 ^ 16` it is positional with a digit after the point; beyond that it has one
digit before the point and a signed exponent. -/
def floatText (negative : Bool) (magnitude : Magnitude) : List Char :=
  let decimal := Decimal.shortest magnitude
  let digits := Decimal.significant decimal.digits
  let point : Int := (Nat.toDigits 10 decimal.digits).length + decimal.exponent
  let body :=
    if magnitude.mantissa = 0 then ['0', '.', '0']
    else if digits.length ≤ point ∧ point ≤ 16 then
      digits ++ List.replicate (point - digits.length).toNat '0' ++ ['.', '0']
    else if 0 < point ∧ point ≤ 16 then
      digits.take point.toNat ++ '.' :: digits.drop point.toNat
    else if -5 < point ∧ point ≤ 0 then
      ['0', '.'] ++ List.replicate (-point).toNat '0' ++ digits
    else
      let fraction := if digits.length = 1 then [] else '.' :: digits.drop 1
      let exponent := point - 1
      digits.take 1 ++ fraction ++ 'e' :: (if exponent < 0 then '-' else '+')
        :: Nat.toDigits 10 exponent.natAbs
  if negative then '-' :: body else body

/-- The wording of a found value. -/
def Found.message : Found → String
  | .null => "null"
  | .boolean value => "boolean `" ++ (if value then "true" else "false") ++ "`"
  | .integer value => "integer `" ++ toString value ++ "`"
  | .float negative magnitude =>
    "floating point `" ++ String.ofList (floatText negative magnitude) ++ "`"
  | .literal text => "string " ++ Text.quoted (String.ofList text)
  | .list => "sequence"
  | .object => "map"

/-- The wording of a wanted type. -/
def Wanted.message : Wanted → String
  | .config => "struct Config"
  | .text => "a string"
  | .list => "a sequence"
  | .null => "unit"

/-- The wording of a cause. -/
def Cause.message : Cause → String
  | .endInValue => "EOF while parsing a value"
  | .endInList => "EOF while parsing a list"
  | .endInObject => "EOF while parsing an object"
  | .endInText => "EOF while parsing a string"
  | .expectedValue => "expected value"
  | .expectedWord => "expected ident"
  | .expectedColon => "expected `:`"
  | .expectedObjectEnd => "expected `,` or `\x7d`"
  | .expectedListEnd => "expected `,` or `]`"
  | .keyNotText => "key must be a string"
  | .trailingComma => "trailing comma"
  | .trailingText => "trailing characters"
  | .badNumber => "invalid number"
  | .numberTooLarge => "number out of range"
  | .badEscape => "invalid escape"
  | .controlCharacter =>
    "control character (\\u0000-\\u001F) found while parsing a string"
  | .loneSurrogate => "lone leading surrogate in hex escape"
  | .unpairedSurrogate => "unexpected end of hex escape"
  | .wrongType found wanted =>
    "invalid type: " ++ found.message ++ ", expected " ++ wanted.message
  | .unknownFormat name =>
    "unknown variant `" ++ String.ofList name ++ "`, expected `text` or `json`"
  | .duplicateField name => "duplicate field `" ++ name ++ "`"

/-! ## Places -/

/-- A place in a text: the line, counted from one, and the bytes read of it. -/
structure Place where
  line : Nat
  column : Nat
  deriving DecidableEq, Repr

namespace Place

/-- The start of a text. -/
def start : Place := ⟨1, 0⟩

/-- The place after one more character. -/
def next (place : Place) (c : Char) : Place :=
  if c = '\n' then ⟨place.line + 1, 0⟩ else ⟨place.line, place.column + c.utf8Size⟩

/-- The place after `count` more bytes of the text, or after all of it. -/
def advance (place : Place) : (count : Nat) → List Char → Place
  | _, [] => place
  | count, c :: rest =>
    if count = 0 then place
    else if c.utf8Size ≤ count then (place.next c).advance (count - c.utf8Size) rest
    else ⟨place.line, place.column + count⟩

end Place

/-- Where in the whole text a fault was noticed. -/
def Fault.place (fault : Fault) (text : List Char) : Place :=
  let before := text.take (text.length - fault.rest.length)
  (before.foldl Place.next Place.start).advance fault.taken fault.rest

/-- The wording of a fault in the whole text. -/
def Fault.message (fault : Fault) (text : List Char) : String :=
  let place := fault.place text
  fault.cause.message ++ " at line " ++ toString place.line ++ " column "
    ++ toString place.column

end FeatureDigest.Json
