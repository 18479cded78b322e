import FeatureDigest.Text.Combining
import FeatureDigest.Text.Unprintable

/-!
# Quoted text

The form in which messages show a path or a string: between double quotes, with
everything escaped that would not show as itself.
-/

set_option autoImplicit false

namespace FeatureDigest.Text

/-- The character would not show as a character of its own. -/
def isHidden (c : Char) : Bool :=
  let within := fun range : Nat × Nat => range.1 ≤ c.toNat && c.toNat ≤ range.2
  0x20 > c.toNat || (0x7E < c.toNat &&
    (unprintableRanges.any within || combiningRanges.any within))

/-- What stands for one character between the quotes. -/
def escapeQuoted (c : Char) : List Char :=
  match c with
  | '"' => ['\\', '"']
  | '\\' => ['\\', '\\']
  | '\n' => ['\\', 'n']
  | '\r' => ['\\', 'r']
  | '\t' => ['\\', 't']
  | '\x00' => ['\\', '0']
  | c =>
    if isHidden c then ['\\', 'u', '\x7b'] ++ Nat.toDigits 16 c.toNat ++ ['\x7d']
    else [c]

/-- The text between double quotes, with what does not show escaped. -/
def quoted (text : String) : String :=
  String.ofList ('"' :: (text.toList.flatMap escapeQuoted ++ ['"']))

end FeatureDigest.Text
