/-!
# Lines of a text

A line ends with a line feed, and a carriage return right before that line feed
belongs to the line end.  The last line may go without a line end; it then keeps
a carriage return it ends with.  An empty text has no line.
-/

set_option autoImplicit false

namespace FeatureDigest.Text

/-- A line without the carriage return of its line end. -/
def dropLineReturn : List Char → List Char
  | [] => []
  | ['\r'] => []
  | c :: rest => c :: dropLineReturn rest

/-- The lines of a text, the characters of the line under way in reverse. -/
def linesFrom (reversed : List Char) : List Char → List (List Char)
  | [] => if reversed.isEmpty then [] else [reversed.reverse]
  | c :: rest =>
    if c = '\n' then dropLineReturn reversed.reverse :: linesFrom [] rest
    else linesFrom (c :: reversed) rest

/-- The lines of a text, without their line ends. -/
def linesOf (text : List Char) : List (List Char) := linesFrom [] text

/-- The lines of a text, without their line ends. -/
def lines (text : String) : List String := (linesOf text.toList).map String.ofList

/-- The carriage return that a line ends with goes. -/
theorem dropLineReturn_append_return (line : List Char) :
    dropLineReturn (line ++ ['\r']) = line := by
  induction line with
  | nil => rfl
  | cons c rest ih =>
    rw [List.cons_append, dropLineReturn, ih]
    simp

/-- A line stays as it is, or a carriage return goes from its end. -/
theorem dropLineReturn_cases (line : List Char) :
    dropLineReturn line = line ∨ line = dropLineReturn line ++ ['\r'] := by
  induction line with
  | nil => exact Or.inl rfl
  | cons c rest ih =>
    unfold dropLineReturn
    split
    · rename_i hnil
      cases hnil
    · rename_i hreturn
      exact Or.inr hreturn
    · rename_i d more _ hcons
      cases hcons
      rcases ih with ih | ih
      · exact Or.inl (congrArg (c :: ·) ih)
      · exact Or.inr (congrArg (c :: ·) ih)

theorem linesFrom_append_newline (reversed line rest : List Char)
    (h : '\n' ∉ line) :
    linesFrom reversed (line ++ '\n' :: rest)
      = dropLineReturn (reversed.reverse ++ line) :: linesFrom [] rest := by
  induction line generalizing reversed with
  | nil => simp [linesFrom]
  | cons c more ih =>
    simp only [List.mem_cons, not_or] at h
    have hc : c ≠ '\n' := fun e => h.1 e.symm
    simp [linesFrom, hc, ih (c :: reversed) h.2]

/-- A line feed ends the first line, whatever follows. -/
theorem linesOf_append_newline (line rest : List Char) (h : '\n' ∉ line) :
    linesOf (line ++ '\n' :: rest) = dropLineReturn line :: linesOf rest := by
  simpa [linesOf] using linesFrom_append_newline [] line rest h

theorem linesFrom_of_not_mem (reversed line : List Char) (h : '\n' ∉ line) :
    linesFrom reversed line
      = if (reversed.reverse ++ line).isEmpty then [] else [reversed.reverse ++ line] := by
  induction line generalizing reversed with
  | nil => cases reversed <;> simp [linesFrom]
  | cons c more ih =>
    simp only [List.mem_cons, not_or] at h
    have hc : c ≠ '\n' := fun e => h.1 e.symm
    simp [linesFrom, hc, ih (c :: reversed) h.2]

/-- A text without a line feed is one line, or none when it is empty. -/
theorem linesOf_of_not_mem (line : List Char) (h : '\n' ∉ line) :
    linesOf line = if line.isEmpty then [] else [line] := by
  simpa [linesOf] using linesFrom_of_not_mem [] line h

end FeatureDigest.Text
