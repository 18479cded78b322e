import FeatureDigest.Json.Fault
import FeatureDigest.Text.Bytes

/-!
# String literals of JSON texts

Reading and writing what stands between two double quotes, and skipping it.  A
literal that is only skipped may spell surrogates that pair with nothing.
-/

set_option autoImplicit false

namespace FeatureDigest.Json

/-! ## Escapes -/

/-- The character that a one-letter escape stands for. -/
def letterEscape? : Char → Option Char
  | '"' => some '"'
  | '\\' => some '\\'
  | '/' => some '/'
  | 'b' => some '\x08'
  | 'f' => some '\x0c'
  | 'n' => some '\n'
  | 'r' => some '\r'
  | 't' => some '\t'
  | _ => none

/-- The value of a hexadecimal digit of either case. -/
def hexValue? (c : Char) : Option Nat :=
  if '0' ≤ c ∧ c ≤ '9' then some (c.toNat - '0'.toNat)
  else if 'a' ≤ c ∧ c ≤ 'f' then some (c.toNat - 'a'.toNat + 10)
  else if 'A' ≤ c ∧ c ≤ 'F' then some (c.toNat - 'A'.toNat + 10)
  else none

/-- The 16-bit unit that four hexadecimal digits spell. -/
def unit? (a b c d : Char) : Option Nat := do
  let a ← hexValue? a
  let b ← hexValue? b
  let c ← hexValue? c
  let d ← hexValue? d
  return ((a * 16 + b) * 16 + c) * 16 + d

/-- The unit starts a pair. -/
def isLeading (unit : Nat) : Bool := 0xD800 ≤ unit && unit ≤ 0xDBFF

/-- The unit ends a pair. -/
def isTrailing (unit : Nat) : Bool := 0xDC00 ≤ unit && unit ≤ 0xDFFF

/-- The character that a pair of units stands for. -/
def pairChar (leading trailing : Nat) : Char :=
  Char.ofNat ((leading - 0xD800) * 0x400 + (trailing - 0xDC00) + 0x10000)

/-- The fault of a `\u` that four hexadecimal digits do not follow.  Four bytes are
read before they are looked at. -/
def unitFault (rest : List Char) : Fault :=
  if Text.byteCount rest < 4 then ⟨.endInText, [], 0⟩ else ⟨.badEscape, rest, 4⟩

/-! ## Reading -/

/-- Puts a character in front of what was read. -/
def consText (c : Char) : Except Fault (List Char × List Char) →
    Except Fault (List Char × List Char)
  | .ok (text, rest) => .ok (c :: text, rest)
  | .error fault => .error fault

/-- Reads a literal after its opening quote, up to and with its closing quote. -/
def readLiteral : Reader (List Char)
  | [] => .error ⟨.endInText, [], 0⟩
  | '"' :: rest => .ok ([], rest)
  | '\\' :: [] => .error ⟨.endInText, [], 0⟩
  | '\\' :: 'u' :: rest =>
    match rest with
    | a :: b :: c :: d :: rest =>
      match unit? a b c d with
      | none => .error (unitFault (a :: b :: c :: d :: rest))
      | some unit =>
        if isTrailing unit then .error ⟨.loneSurrogate, rest, 0⟩
        else if isLeading unit then
          match rest with
          | [] => .error ⟨.endInText, [], 0⟩
          | ['\\'] => .error ⟨.endInText, [], 0⟩
          | '\\' :: 'u' :: rest =>
            match rest with
            | a :: b :: c :: d :: rest =>
              match unit? a b c d with
              | none => .error (unitFault (a :: b :: c :: d :: rest))
              | some trailing =>
                if isTrailing trailing then
                  consText (pairChar unit trailing) (readLiteral rest)
                else .error ⟨.loneSurrogate, rest, 0⟩
            | short => .error (unitFault short)
          | '\\' :: rest => .error ⟨.unpairedSurrogate, rest, 1⟩
          | rest => .error ⟨.unpairedSurrogate, rest, 1⟩
        else consText (Char.ofNat unit) (readLiteral rest)
    | short => .error (unitFault short)
  | '\\' :: letter :: rest =>
    match letterEscape? letter with
    | some c => consText c (readLiteral rest)
    | none => .error ⟨.badEscape, letter :: rest, 1⟩
  | c :: rest =>
    if c.toNat < 0x20 then .error ⟨.controlCharacter, c :: rest, 1⟩
    else consText c (readLiteral rest)

/-- Skips a literal after its opening quote, up to and with its closing quote. -/
def skipLiteral : List Char → Except Fault (List Char)
  | [] => .error ⟨.endInText, [], 0⟩
  | '"' :: rest => .ok rest
  | '\\' :: [] => .error ⟨.endInText, [], 0⟩
  | '\\' :: 'u' :: rest =>
    match rest with
    | a :: b :: c :: d :: rest =>
      if (unit? a b c d).isSome then skipLiteral rest
      else .error (unitFault (a :: b :: c :: d :: rest))
    | short => .error (unitFault short)
  | '\\' :: letter :: rest =>
    if (letterEscape? letter).isSome then skipLiteral rest
    else .error ⟨.badEscape, letter :: rest, 1⟩
  | c :: rest =>
    if c.toNat < 0x20 then .error ⟨.controlCharacter, c :: rest, 0⟩
    else skipLiteral rest

/-! ## Writing -/

/-- The lower-case hexadecimal digit of a value below sixteen. -/
def hexDigit (value : Nat) : Char :=
  if value < 10 then Char.ofNat ('0'.toNat + value)
  else Char.ofNat ('a'.toNat + (value - 10))

/-- What stands for one character in a written literal: the shortest escape for the
quote, the backslash and the control characters below U+0020, and all other
characters as they are. -/
def escapeLiteral (c : Char) : List Char :=
  match c with
  | '"' => ['\\', '"']
  | '\\' => ['\\', '\\']
  | '\x08' => ['\\', 'b']
  | '\x0c' => ['\\', 'f']
  | '\n' => ['\\', 'n']
  | '\r' => ['\\', 'r']
  | '\t' => ['\\', 't']
  | c =>
    if c.toNat < 0x20 then
      ['\\', 'u', '0', '0', hexDigit (c.toNat / 16), hexDigit (c.toNat % 16)]
    else [c]

/-- The literal of a text, with its quotes. -/
def writeLiteral (text : List Char) : List Char :=
  '"' :: (text.flatMap escapeLiteral ++ ['"'])

end FeatureDigest.Json
