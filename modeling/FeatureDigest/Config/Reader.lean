import FeatureDigest.Config.Basic
import FeatureDigest.Json.Skip

/-!
# Reading configurations

A configuration is a JSON object, or a list of the field values in the order in
which they are written.  Fields that are not given keep their standard values, and
keys that name no field are skipped with their values.  A fault is noticed where
the first character stands that cannot be read.
-/

set_option autoImplicit false

namespace FeatureDigest

open FeatureDigest.Json

/-! ## Values -/

namespace Json

/-- The fault of a value, at the start of the text, that is not of the wanted type.
Scalars are read first, so a fault inside of them comes before it. -/
def mismatch (wanted : Wanted) (text : List Char) : Fault :=
  let wrong := fun (found : Found) (outcome : Except Fault (List Char)) =>
    match outcome with
    | .ok rest => ⟨.wrongType found wanted, rest, 0⟩
    | .error fault => fault
  let wrongNumber := fun outcome : Except Fault (Found × List Char) =>
    match outcome with
    | .ok (found, rest) => ⟨.wrongType found wanted, rest, 0⟩
    | .error fault => fault
  match text with
  | 'n' :: rest => wrong .null (readWord ['u', 'l', 'l'] rest)
  | 't' :: rest => wrong (.boolean true) (readWord ['r', 'u', 'e'] rest)
  | 'f' :: rest => wrong (.boolean false) (readWord ['a', 'l', 's', 'e'] rest)
  | '-' :: rest => wrongNumber (readNumber true rest)
  | '"' :: rest =>
    match readLiteral rest with
    | .ok (text, rest) => ⟨.wrongType (.literal text) wanted, rest, 0⟩
    | .error fault => fault
  | '[' :: rest => ⟨.wrongType .list wanted, '[' :: rest, 0⟩
  | '{' :: rest => ⟨.wrongType .object wanted, '{' :: rest, 0⟩
  | [] => ⟨.endInValue, [], 0⟩
  | c :: rest =>
    if c.isDigit then wrongNumber (readNumber false (c :: rest))
    else ⟨.expectedValue, c :: rest, 1⟩

/-- Reads a text. -/
def readText : Reader String := fun text =>
  match skipSpace text with
  | '"' :: rest => do
    let (content, rest) ← readLiteral rest
    return (String.ofList content, rest)
  | rest => .error (mismatch .text rest)

/-- Reads `null`. -/
def readNull (text : List Char) : Except Fault (List Char) :=
  match skipSpace text with
  | 'n' :: rest => readWord ['u', 'l', 'l'] rest
  | rest => .error (mismatch .null rest)

/-- Goes on after the comma of a list, which the end of the list may not follow. -/
def afterComma (text : List Char) : Except Fault (List Char) :=
  match skipSpace text with
  | ']' :: rest => .error ⟨.trailingComma, ']' :: rest, 1⟩
  | [] => .error ⟨.endInValue, [], 0⟩
  | rest => .ok rest

/-- Reads the texts of a list after its first one, and its end. -/
def readMoreTexts : (fuel : Nat) → Reader (List String)
  | 0, text => .error ⟨.endInList, text, 0⟩
  | fuel + 1, text =>
    match skipSpace text with
    | ']' :: rest => .ok ([], rest)
    | ',' :: rest => do
      let rest ← afterComma rest
      let (content, rest) ← readText rest
      let (contents, rest) ← readMoreTexts fuel rest
      return (content :: contents, rest)
    | [] => .error ⟨.endInList, [], 0⟩
    | rest => .error ⟨.expectedListEnd, rest, 1⟩

/-- Reads a list of texts. -/
def readTexts : Reader (List String) := fun text =>
  match skipSpace text with
  | '[' :: rest =>
    match skipSpace rest with
    | ']' :: rest => .ok ([], rest)
    | [] => .error ⟨.endInList, [], 0⟩
    | rest => do
      let (content, rest) ← readText rest
      let (contents, rest) ← readMoreTexts (rest.length + 1) rest
      return (content :: contents, rest)
  | rest => .error (mismatch .list rest)

end Json

/-! ## Fields -/

/-- The format that a name stands for, the text after the name being `rest`. -/
def Format.ofLiteral (name rest : List Char) : Except Fault (Format × List Char) :=
  match Format.ofName? (String.ofList name) with
  | some format => .ok (format, rest)
  | none => .error ⟨.unknownFormat name, rest, 0⟩

/-- Reads a format: its name, or an object that gives `null` to its name. -/
def Format.read : Reader Format := fun text =>
  match skipSpace text with
  | '"' :: rest => do
    let (name, rest) ← readLiteral rest
    Format.ofLiteral name rest
  | '{' :: rest =>
    match skipSpace rest with
    | '"' :: rest => do
      let (name, rest) ← readLiteral rest
      let (format, rest) ← Format.ofLiteral name rest
      let rest ← readColon rest
      let rest ← readNull rest
      match skipSpace rest with
      | '}' :: rest => return (format, rest)
      | [] => throw ⟨.endInObject, [], 0⟩
      | rest => throw ⟨.expectedValue, rest, 0⟩
    | '}' :: rest => .error ⟨.expectedValue, '}' :: rest, 1⟩
    | [] => .error ⟨.endInObject, [], 0⟩
    | rest => .error ⟨.keyNotText, rest, 1⟩
  | [] => .error ⟨.endInValue, [], 0⟩
  | rest => .error ⟨.expectedValue, rest, 1⟩

namespace Config

/-- The fields read so far. -/
structure Draft where
  root : Option String
  extensions : Option (List String)
  ignores : Option (List String)
  format : Option Format
  deriving DecidableEq, Repr

namespace Draft

/-- No field was read yet. -/
def blank : Draft := ⟨none, none, none, none⟩

/-- The field was read. -/
def has (draft : Draft) : Field → Bool
  | .root => draft.root.isSome
  | .extensions => draft.extensions.isSome
  | .ignores => draft.ignores.isSome
  | .format => draft.format.isSome

/-- The configuration: what was read, and standard values for the rest. -/
def finish (draft : Draft) : Config where
  root := draft.root.getD standard.root
  extensions := draft.extensions.getD standard.extensions
  ignores := draft.ignores.getD standard.ignores
  format := draft.format.getD standard.format

/-- Reads the value of a field. -/
def readField (draft : Draft) (field : Field) : Reader Draft := fun text =>
  match field with
  | .root => do
    let (root, rest) ← readText text
    return ({ draft with root := some root }, rest)
  | .extensions => do
    let (extensions, rest) ← readTexts text
    return ({ draft with extensions := some extensions }, rest)
  | .ignores => do
    let (ignores, rest) ← readTexts text
    return ({ draft with ignores := some ignores }, rest)
  | .format => do
    let (format, rest) ← Format.read text
    return ({ draft with format := some format }, rest)

/-- The fault of a key that occurs a second time.  It is noticed once the rest of
the object was looked at, so an end right after the key counts as read. -/
def duplicateFault (field : Field) (text : List Char) : Fault :=
  match skipSpace text with
  | '}' :: rest => ⟨.duplicateField field.name, rest, 0⟩
  | rest => ⟨.duplicateField field.name, rest, 0⟩

/-- Reads a member after the opening quote of its key. -/
def readMember (draft : Draft) : Reader Draft := fun text => do
  let (key, rest) ← readLiteral text
  match Field.ofName? (String.ofList key) with
  | some field =>
    if draft.has field then throw (duplicateFault field rest)
    else
      let rest ← readColon rest
      draft.readField field rest
  | none =>
    let rest ← readColon rest
    let rest ← skipValue rest
    return (draft, rest)

/-- Reads the members of an object after its first one, and its end. -/
def readMoreMembers : (fuel : Nat) → Draft → Reader Draft
  | 0, _, text => .error ⟨.endInObject, text, 0⟩
  | fuel + 1, draft, text =>
    match skipSpace text with
    | '}' :: rest => .ok (draft, rest)
    | ',' :: rest =>
      match skipSpace rest with
      | '"' :: rest => do
        let (draft, rest) ← draft.readMember rest
        readMoreMembers fuel draft rest
      | '}' :: rest => .error ⟨.trailingComma, '}' :: rest, 1⟩
      | [] => .error ⟨.endInValue, [], 0⟩
      | rest => .error ⟨.keyNotText, rest, 1⟩
    | [] => .error ⟨.endInObject, [], 0⟩
    | rest => .error ⟨.expectedObjectEnd, rest, 1⟩

/-- Reads an object after its opening bracket. -/
def readObject : Reader Draft := fun text =>
  match skipSpace text with
  | '}' :: rest => .ok (blank, rest)
  | '"' :: rest => do
    let (draft, rest) ← blank.readMember rest
    readMoreMembers (rest.length + 1) draft rest
  | [] => .error ⟨.endInObject, [], 0⟩
  | rest => .error ⟨.keyNotText, rest, 1⟩

/-- Reads the end of a list in which every field was given. -/
def readListEnd (draft : Draft) : Reader Draft := fun text =>
  match skipSpace text with
  | ']' :: rest => .ok (draft, rest)
  | ',' :: rest =>
    match skipSpace rest with
    | ']' :: rest => .error ⟨.trailingComma, ']' :: rest, 1⟩
    | rest => .error ⟨.trailingText, rest, 1⟩
  | [] => .error ⟨.endInList, [], 0⟩
  | rest => .error ⟨.trailingText, rest, 1⟩

/-- Reads the values of the given fields after the first one, and the end of the
list. -/
def readMoreFields : List Field → Draft → Reader Draft
  | [], draft, text => draft.readListEnd text
  | field :: fields, draft, text =>
    match skipSpace text with
    | ']' :: rest => .ok (draft, rest)
    | ',' :: rest => do
      let rest ← afterComma rest
      let (draft, rest) ← draft.readField field rest
      readMoreFields fields draft rest
    | [] => .error ⟨.endInList, [], 0⟩
    | rest => .error ⟨.expectedListEnd, rest, 1⟩

/-- Reads a list of field values after its opening bracket. -/
def readList : Reader Draft := fun text =>
  match skipSpace text with
  | ']' :: rest => .ok (blank, rest)
  | [] => .error ⟨.endInList, [], 0⟩
  | rest => do
    let (draft, rest) ← blank.readField .root rest
    readMoreFields [.extensions, .ignores, .format] draft rest

/-- Reads an object or a list of field values. -/
def read : Reader Draft := fun text =>
  match skipSpace text with
  | '{' :: rest => readObject rest
  | '[' :: rest => readList rest
  | rest => .error (mismatch .config rest)

end Draft

/-- The configuration that a whole text spells. -/
def ofChars (text : List Char) : Except Fault Config := do
  let (draft, rest) ← Draft.read text
  match skipSpace rest with
  | [] => return draft.finish
  | rest => throw ⟨.trailingText, rest, 1⟩

/-- The configuration that a text spells. -/
def ofText (text : String) : Except Fault Config := ofChars text.toList

end Config

end FeatureDigest
