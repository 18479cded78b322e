import FeatureDigest.Json.Literal

/-!
# Written JSON values

The values that reports and configurations are written as, and their layout: one
member or element a line, two blanks of indentation a level, and an empty list on
one line.
-/

set_option autoImplicit false

namespace FeatureDigest.Json

/-- A value to be written. -/
inductive Value
  | number (n : Nat)
  | text (content : String)
  | list (values : List Value)
  | object (members : List (String × Value))

namespace Value

/-- A list of texts. -/
def texts (values : List String) : Value := .list (values.map .text)

/-- A line end, and the indentation of a level. -/
def lineBreak (level : Nat) : List Char := '\n' :: List.replicate (2 * level) ' '

mutual

/-- A value as it stands at a level of nesting. -/
def write (level : Nat) : Value → List Char
  | .number n => Nat.toDigits 10 n
  | .text content => writeLiteral content.toList
  | .list [] => ['[', ']']
  | .list (value :: values) =>
    '[' :: (lineBreak (level + 1) ++ write (level + 1) value
      ++ writeElements (level + 1) values ++ lineBreak level ++ [']'])
  | .object [] => ['\x7b', '\x7d']
  | .object (member :: members) =>
    '\x7b' :: (lineBreak (level + 1) ++ writeMember (level + 1) member
      ++ writeMembers (level + 1) members ++ lineBreak level ++ ['\x7d'])

/-- The elements after the first, each on its line. -/
def writeElements (level : Nat) : List Value → List Char
  | [] => []
  | value :: values =>
    ',' :: (lineBreak level ++ write level value ++ writeElements level values)

/-- A member: its key, and its value on the same line. -/
def writeMember (level : Nat) : String × Value → List Char
  | (key, value) => writeLiteral key.toList ++ [':', ' '] ++ write level value

/-- The members after the first, each on its line. -/
def writeMembers (level : Nat) : List (String × Value) → List Char
  | [] => []
  | member :: members =>
    ',' :: (lineBreak level ++ writeMember level member ++ writeMembers level members)

end

/-- The whole text of a value. -/
def render (value : Value) : String := String.ofList (write 0 value)

end Value

end FeatureDigest.Json
