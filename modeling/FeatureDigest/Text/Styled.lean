/-!
# Styled text

Terminal styles as select-graphic-rendition sequences: `ESC [`, decimal
parameters between semicolons, `m`.  A style is opened before a text and reset
after it; where the text itself resets, the style is opened again.
-/

set_option autoImplicit false

namespace FeatureDigest.Text

/-- The styles that messages and listings use. -/
inductive Style
  | bold
  | green
  | cyan
  | yellow
  | boldYellow
  deriving DecidableEq, Repr, Inhabited

/-- The parameters of a style's sequence. -/
def Style.parameters : Style → List Char
  | .bold => ['1']
  | .green => ['3', '2']
  | .cyan => ['3', '6']
  | .yellow => ['3', '3']
  | .boldYellow => ['1', ';', '3', '3']

/-- The character that a sequence starts with. -/
def escape : Char := '\x1b'

/-- The sequence with the given parameters. -/
def sequence (parameters : List Char) : List Char :=
  escape :: '[' :: (parameters ++ ['m'])

/-- The sequence that turns a style on. -/
def Style.opening (style : Style) : List Char := sequence style.parameters

/-- The sequence that turns every style off. -/
def reset : List Char := sequence ['0']

/-- The text with `opening` put after every reset in it. -/
def reopen (opening : List Char) : List Char → List Char
  | '\x1b' :: '[' :: '0' :: 'm' :: rest => reset ++ opening ++ reopen opening rest
  | c :: rest => c :: reopen opening rest
  | [] => []

/-- The text in a style, or as it is when colours are off. -/
def painted (colour : Bool) (style : Style) (text : String) : String :=
  if colour then
    String.ofList (style.opening ++ reopen style.opening text.toList ++ reset)
  else text

/-- A text without an escape character has no reset in it. -/
theorem reopen_of_not_mem (opening : List Char) {text : List Char}
    (h : escape ∉ text) : reopen opening text = text := by
  induction text with
  | nil => rfl
  | cons c rest ih =>
    simp only [List.mem_cons, not_or] at h
    have hc : c ≠ '\x1b' := fun e => h.1 e.symm
    rw [reopen, ih h.2]
    rintro tail rfl
    exact absurd rfl hc

@[simp] theorem painted_false (style : Style) (text : String) :
    painted false style text = text := rfl

end FeatureDigest.Text
