import FeatureDigest.Proofs.Text.Plain

/-!
# Text without its styles

Deleting every select-graphic-rendition sequence from a text that was painted gives the text
that was not (`Shades.painted`), if no sequence stands in it anyway.  That one text is another
one with styles is stated with whatever may follow, so that it holds of texts that are put
together from such parts (`Shades.append`).
-/

set_option autoImplicit false

namespace FeatureDigest.Text

/-- The characters of the parameters that a text starts with and of the `m` after them. -/
def parametersEnd? : List Char → Option Nat
  | [] => none
  | c :: rest =>
    if c = 'm' then some 1
    else if c.isDigit || c = ';' then (parametersEnd? rest).map (· + 1)
    else none

/-- The characters of the sequence that a text starts with, after its escape character. -/
def sequenceEnd? : List Char → Option Nat
  | '[' :: rest => (parametersEnd? rest).map (· + 1)
  | _ => none

/-- A text after so many characters, without its sequences. -/
def unstyledFrom : (skipped : Nat) → List Char → List Char
  | _, [] => []
  | skipped + 1, _ :: rest => unstyledFrom skipped rest
  | 0, c :: rest =>
    match if c = escape then sequenceEnd? rest else none with
    | some width => unstyledFrom width rest
    | none => c :: unstyledFrom 0 rest

/-- A text without its sequences. -/
def unstyled (text : List Char) : List Char := unstyledFrom 0 text

/-! ## Sequences -/

theorem unstyledFrom_length (first rest : List Char) :
    unstyledFrom first.length (first ++ rest) = unstyled rest := by
  induction first with
  | nil => rfl
  | cons c first ih => exact ih

theorem parametersEnd?_sequence {parameters : List Char}
    (h : ∀ c ∈ parameters, c.isDigit = true ∨ c = ';') (rest : List Char) :
    parametersEnd? (parameters ++ 'm' :: rest) = some (parameters.length + 1) := by
  induction parameters with
  | nil => rfl
  | cons c parameters ih =>
    have hc := h c List.mem_cons_self
    have hother : c ≠ 'm' := by
      rintro rfl
      exact absurd hc (by decide)
    have hparameter : (c.isDigit || c = ';') = true := by simpa using hc
    have hrest := ih fun other hmem => h other (List.mem_cons_of_mem c hmem)
    rw [List.cons_append, parametersEnd?, if_neg hother, if_pos hparameter, hrest]
    rfl

theorem unstyled_sequence {parameters : List Char}
    (h : ∀ c ∈ parameters, c.isDigit = true ∨ c = ';') (rest : List Char) :
    unstyled (sequence parameters ++ rest) = unstyled rest := by
  have hend : sequenceEnd? ('[' :: (parameters ++ 'm' :: rest))
      = some ('[' :: (parameters ++ ['m'])).length := by
    rw [sequenceEnd?, parametersEnd?_sequence h]
    simp
  have hwhole : sequence parameters ++ rest = escape :: '[' :: (parameters ++ 'm' :: rest) := by
    simp [sequence]
  have hpast : '[' :: (parameters ++ 'm' :: rest) = '[' :: (parameters ++ ['m']) ++ rest := by
    simp
  rw [hwhole, unstyled, unstyledFrom, if_pos rfl, hend]
  dsimp only
  rw [hpast]
  exact unstyledFrom_length _ rest

theorem unstyled_of_not_mem {text : List Char} (h : escape ∉ text) (rest : List Char) :
    unstyled (text ++ rest) = text ++ unstyled rest := by
  induction text with
  | nil => rfl
  | cons c text ih =>
    rw [List.mem_cons, not_or] at h
    have hc : c ≠ escape := fun heq => h.1 heq.symm
    rw [List.cons_append, unstyled, unstyledFrom, if_neg hc]
    exact congrArg (c :: ·) (ih h.2)

/-! ## Shades -/

/-- A text is another one with sequences in it, whatever follows. -/
def Shades (styled plain : String) : Prop :=
  ∀ rest, unstyled (styled.toList ++ rest) = plain.toList ++ unstyled rest

namespace Shades

variable {styled plain first second : String}

theorem unstyled_eq (h : Shades styled plain) : unstyled styled.toList = plain.toList := by
  have hall := h []
  have hnil : unstyled [] = [] := rfl
  rwa [hnil, List.append_nil, List.append_nil] at hall

theorem of_plain (h : Plain plain) : Shades plain plain := unstyled_of_not_mem h

theorem append (hfirst : Shades styled plain) (hsecond : Shades first second) :
    Shades (styled ++ first) (plain ++ second) := by
  intro rest
  rw [String.toList_append, String.toList_append, List.append_assoc, hfirst, hsecond,
    List.append_assoc]

/-- Painting a text without escape characters only puts sequences around it. -/
theorem painted (style : Style) (h : Plain plain) :
    Shades (Text.painted true style plain) (Text.painted false style plain) := by
  have hopening : ∀ c ∈ style.parameters, c.isDigit = true ∨ c = ';' := by
    cases style <;> simp [Style.parameters]
  have hreset : ∀ c ∈ ['0'], c.isDigit = true ∨ c = ';' := by simp
  intro rest
  rw [painted_false, Text.painted, if_pos rfl, String.toList_ofList, reopen_of_not_mem _ h,
    List.append_assoc, List.append_assoc, Style.opening, reset, unstyled_sequence hopening,
    unstyled_of_not_mem h, unstyled_sequence hreset]

end Shades

end FeatureDigest.Text
