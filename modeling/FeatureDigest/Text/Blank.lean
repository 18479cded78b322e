/-!
# Blank characters

A character is blank when it has the property `White_Space`.  A line is blank
when it holds nothing else, and indentation is the blank run a line starts with.
-/

set_option autoImplicit false

namespace FeatureDigest.Text

/-- The code points of `White_Space`, as closed ranges in ascending order. -/
def blankRanges : List (Nat × Nat) :=
  [(0x09, 0x0D), (0x20, 0x20), (0x85, 0x85), (0xA0, 0xA0), (0x1680, 0x1680),
   (0x2000, 0x200A), (0x2028, 0x2029), (0x202F, 0x202F), (0x205F, 0x205F),
   (0x3000, 0x3000)]

/-- The character has the property `White_Space`. -/
def isBlank (c : Char) : Bool :=
  blankRanges.any fun range => range.1 ≤ c.toNat && c.toNat ≤ range.2

/-- The text without the blank characters it starts with. -/
def unindent (text : List Char) : List Char := text.dropWhile isBlank

/-- The text holds blank characters only. -/
def allBlank (text : List Char) : Bool := text.all isBlank

theorem unindent_eq_nil_iff (text : List Char) :
    unindent text = [] ↔ allBlank text = true := by
  rw [unindent, allBlank, List.all_eq_true]
  induction text with
  | nil => simp
  | cons c rest ih =>
    by_cases hc : isBlank c = true <;> simp [hc, ih]

theorem unindent_append_of_allBlank {indent : List Char} (text : List Char)
    (h : allBlank indent = true) : unindent (indent ++ text) = unindent text := by
  induction indent with
  | nil => rfl
  | cons d more ih =>
    simp only [allBlank, List.all_cons, Bool.and_eq_true] at h
    simpa [unindent, h.1] using ih (by simpa [allBlank] using h.2)

end FeatureDigest.Text
