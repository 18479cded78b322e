import FeatureDigest.Json.Literal
import FeatureDigest.Json.Number

/-!
# Skipping JSON values

A value that nobody asked for is checked against the grammar and left out.  The
brackets that are open are kept in a list, so that nesting has no limit.
-/

set_option autoImplicit false

namespace FeatureDigest.Json

/-- The character separates tokens. -/
def isSpace (c : Char) : Bool := c == ' ' || c == '\n' || c == '\t' || c == '\r'

/-- The text from its next token on. -/
def skipSpace (text : List Char) : List Char := text.dropWhile isSpace

/-- Reads the rest of one of the words `null`, `true` and `false`. -/
def readWord : (expected : List Char) → List Char → Except Fault (List Char)
  | [], rest => .ok rest
  | _ :: _, [] => .error ⟨.endInValue, [], 0⟩
  | e :: expected, c :: rest =>
    if e = c then readWord expected rest else .error ⟨.expectedWord, c :: rest, 1⟩

/-- A bracket that is open. -/
inductive Bracket
  | list
  | object
  deriving DecidableEq, Repr

/-- Where skipping stands after one value: at the next value inside open brackets,
or at the end of the value that was to be skipped. -/
inductive Skipped
  | inside (brackets : List Bracket) (rest : List Char)
  | complete (rest : List Char)
  deriving DecidableEq, Repr

/-- Reads the colon after a key. -/
def readColon (text : List Char) : Except Fault (List Char) :=
  match skipSpace text with
  | ':' :: rest => .ok rest
  | [] => .error ⟨.endInObject, [], 0⟩
  | rest => .error ⟨.expectedColon, rest, 1⟩

/-- Goes on to the next value inside the innermost bracket; in an object its key
comes first. -/
def enter (bracket : Bracket) (outer : List Bracket) (text : List Char) :
    Except Fault Skipped :=
  match bracket with
  | .list => .ok (.inside (.list :: outer) text)
  | .object =>
    match skipSpace text with
    | '"' :: rest => do
      let rest ← skipLiteral rest
      let rest ← readColon rest
      return .inside (.object :: outer) rest
    | [] => .error ⟨.endInObject, [], 0⟩
    | rest => .error ⟨.keyNotText, rest, 1⟩

/-- Closes the brackets that end after a value, up to the comma before the next
value. -/
def leave : (brackets : List Bracket) → List Char → Except Fault Skipped
  | [], text => .ok (.complete text)
  | .list :: outer, text =>
    match skipSpace text with
    | ']' :: rest => leave outer rest
    | ',' :: rest => enter .list outer rest
    | [] => .error ⟨.endInList, [], 0⟩
    | rest => .error ⟨.expectedListEnd, rest, 1⟩
  | .object :: outer, text =>
    match skipSpace text with
    | '}' :: rest => leave outer rest
    | ',' :: rest => enter .object outer rest
    | [] => .error ⟨.endInObject, [], 0⟩
    | rest => .error ⟨.expectedObjectEnd, rest, 1⟩

/-- Goes on after an opening bracket, which may be closed right away. -/
def openBracket (bracket : Bracket) (outer : List Bracket) (text : List Char) :
    Except Fault Skipped :=
  match bracket, skipSpace text with
  | .list, ']' :: rest => leave outer rest
  | .object, '}' :: rest => leave outer rest
  | .list, [] => .error ⟨.endInList, [], 0⟩
  | .object, [] => .error ⟨.endInObject, [], 0⟩
  | bracket, rest => enter bracket outer rest

/-- Skips a value that is no list or object, or opens one. -/
def skipStep (brackets : List Bracket) (text : List Char) : Except Fault Skipped :=
  match skipSpace text with
  | [] => .error ⟨.endInValue, [], 0⟩
  | 'n' :: rest => do leave brackets (← readWord ['u', 'l', 'l'] rest)
  | 't' :: rest => do leave brackets (← readWord ['r', 'u', 'e'] rest)
  | 'f' :: rest => do leave brackets (← readWord ['a', 'l', 's', 'e'] rest)
  | '-' :: rest => do leave brackets (← skipNumber rest)
  | '"' :: rest => do leave brackets (← skipLiteral rest)
  | '[' :: rest => openBracket .list brackets rest
  | '{' :: rest => openBracket .object brackets rest
  | c :: rest =>
    if c.isDigit then do leave brackets (← skipNumber (c :: rest))
    else .error ⟨.expectedValue, c :: rest, 1⟩

/-- Skips values until no bracket is open.  Each step takes at least one character,
so a text of `fuel` characters is skipped in as many steps. -/
def skipFrom : (fuel : Nat) → (brackets : List Bracket) → List Char →
    Except Fault (List Char)
  | 0, _, text => .error ⟨.endInValue, text, 0⟩
  | fuel + 1, brackets, text =>
    match skipStep brackets text with
    | .ok (.inside brackets rest) => skipFrom fuel brackets rest
    | .ok (.complete rest) => .ok rest
    | .error fault => .error fault

/-- Skips one value. -/
def skipValue (text : List Char) : Except Fault (List Char) :=
  skipFrom (text.length + 1) [] text

end FeatureDigest.Json
