import FeatureDigest.Gherkin.Keyword
import FeatureDigest.Text.Blank

/-!
# Entries of a feature file

Each line that is not blank is an entry: the line as it stands, and the item it
states when it starts with a keyword.  The context is the kind of the last step
stated so far; headers, blank lines and lines without a keyword leave it alone.
-/

set_option autoImplicit false

namespace FeatureDigest.Gherkin

open FeatureDigest.Text

/-- What the text states as an item of the given kind: what follows the kind's
keyword, or, for a step of the kind in the context, what follows `And ` or `But `. -/
def Kind.text? (kind : Kind) (context : Option Step) (text : List Char) :
    Option (List Char) :=
  match afterKeyword? kind.keyword text with
  | some rest => some rest
  | none =>
    match kind, context with
    | .step expected, some current =>
      if current = expected then afterContinuation? text else none
    | _, _ => none

/-- An item of a feature file: its kind, and the text after the keyword. -/
structure Item where
  kind : Kind
  text : List Char
  deriving DecidableEq, Repr

/-- The item that a text states, the kinds tried in the given order. -/
def itemBy? (order : List Kind) (context : Option Step) (text : List Char) :
    Option Item :=
  order.findSome? fun kind => (kind.text? context text).map fun rest => ⟨kind, rest⟩

/-- The item that a text states. -/
def item? (context : Option Step) (text : List Char) : Option Item :=
  itemBy? Kind.all context text

/-- The context after a line that states the given item, if any. -/
def contextAfter (context : Option Step) : Option Item → Option Step
  | some ⟨.step step, _⟩ => some step
  | _ => context

/-- A line that is not blank, with the item it states. -/
structure Entry where
  line : String
  item? : Option Item
  deriving DecidableEq, Repr

/-- The entries of the lines, from the given context on. -/
def entriesFrom (order : List Kind) : (context : Option Step) → List String → List Entry
  | _, [] => []
  | context, line :: lines =>
    let text := unindent line.toList
    if text.isEmpty then entriesFrom order context lines
    else
      let item := itemBy? order context text
      ⟨line, item⟩ :: entriesFrom order (contextAfter context item) lines

/-- The entries of a feature file's lines, the kinds tried in the given order. -/
def entriesBy (order : List Kind) (lines : List String) : List Entry :=
  entriesFrom order none lines

end FeatureDigest.Gherkin
