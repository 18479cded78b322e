import FeatureDigest.Json.Skip
import FeatureDigest.Proofs.Json.Plain

/-!
# Escape characters that a JSON text spells

A literal may spell an escape character by its number.  A text that does so nowhere is tame.
From a tame text no reader gets an escape character (`yields_readLiteral`), and what it leaves
is tame again; where it stops, the fault names none.  The characters outside of literals are
no backslashes, so backslashes stay paired from one reader to the next.
-/

set_option autoImplicit false

namespace FeatureDigest.Json

open Text (escape)

/-- After a backslash, the text spells the escape character by its number. -/
def spellsUnit : List Char → Bool
  | 'u' :: a :: b :: c :: d :: _ => unit? a b c d == some escape.toNat
  | _ => false

/-- Some backslash of the text, two in a row counting as a pair, starts an escape character. -/
def spellsEscape : List Char → Bool
  | '\\' :: letter :: rest => spellsUnit (letter :: rest) || spellsEscape rest
  | _ :: rest => spellsEscape rest
  | [] => false

/-- The text spells no escape character. -/
def Tame (text : List Char) : Prop := spellsEscape text = false

instance (text : List Char) : Decidable (Tame text) :=
  inferInstanceAs (Decidable (spellsEscape text = false))

/-! ## Tame texts -/

theorem spellsEscape_cons {c : Char} (h : c ≠ '\\') (rest : List Char) :
    spellsEscape (c :: rest) = spellsEscape rest := by
  rw [spellsEscape]
  rintro letter more rfl
  exact absurd rfl h

namespace Tame

variable {text rest : List Char}

theorem tail {c : Char} (h : Tame (c :: rest)) (hc : c ≠ '\\') : Tame rest := by
  rwa [Tame, spellsEscape_cons hc] at h

theorem dropWhile (h : Tame text) {p : Char → Bool} (hp : p '\\' = false) :
    Tame (text.dropWhile p) := by
  induction text with
  | nil => exact h
  | cons c text ih =>
    rw [List.dropWhile_cons]
    split
    · rename_i hc
      apply ih
      apply h.tail
      rintro rfl
      rw [hp] at hc
      cases hc
    · exact h

theorem skipSpace (h : Tame text) : Tame (skipSpace text) := h.dropWhile rfl

/-- What follows the first token of a text. -/
theorem after {c : Char} (h : Tame text) (hc : c ≠ '\\') (hnext : Json.skipSpace text = c :: rest) :
    Tame rest := by
  have hspace := h.skipSpace
  rw [hnext] at hspace
  exact hspace.tail hc

/-- What follows a one-letter escape. -/
theorem letter {letter : Char} (h : Tame ('\\' :: letter :: rest)) : Tame rest := by
  unfold Tame at h ⊢
  rw [spellsEscape, Bool.or_eq_false_iff] at h
  exact h.2

theorem hexValue?_backslash : hexValue? '\\' = none := by decide

/-- Four digits spell another character than the escape character, and what follows them is
tame. -/
theorem unit {a b c d : Char} {unit : Nat} (h : Tame ('\\' :: 'u' :: a :: b :: c :: d :: rest))
    (hunit : unit? a b c d = some unit) : unit ≠ escape.toNat ∧ Tame rest := by
  constructor
  · rintro rfl
    rw [Tame, spellsEscape, spellsUnit, hunit] at h
    simp at h
  · have hdigits : a ≠ '\\' ∧ b ≠ '\\' ∧ c ≠ '\\' ∧ d ≠ '\\' := by
      refine ⟨?_, ?_, ?_, ?_⟩ <;> rintro rfl <;>
        simp [unit?, hexValue?_backslash] at hunit
    obtain ⟨ha, hb, hc, hd⟩ := hdigits
    exact (((h.letter.tail ha).tail hb).tail hc).tail hd

end Tame

/-! ## What readers yield -/

/-- What was read has a property, or the fault that stopped the reader names no escape
character. -/
def Yields {α : Type} (P : α → Prop) : Except Fault α → Prop
  | .ok read => P read
  | .error fault => fault.cause.Plain

/-- What was read and left has a property, and what was left is tame. -/
abbrev Reads {α : Type} (P : α → Prop) (outcome : Except Fault (α × List Char)) : Prop :=
  Yields (fun read => P read.1 ∧ Tame read.2) outcome

namespace Yields

variable {α β : Type} {P : α → Prop} {Q : β → Prop}

theorem plain {outcome : Except Fault α} {fault : Fault} (h : Yields P outcome)
    (hfault : outcome = .error fault) : fault.cause.Plain := by
  rwa [hfault] at h

theorem bind {outcome : Except Fault α} {next : α → Except Fault β} (h : Yields P outcome)
    (hnext : ∀ read, P read → Yields Q (next read)) : Yields Q (outcome >>= next) := by
  cases outcome with
  | ok read => exact hnext read h
  | error fault => exact h

theorem mono {P' : α → Prop} {outcome : Except Fault α} (h : Yields P outcome)
    (himp : ∀ read, P read → P' read) : Yields P' outcome := by
  cases outcome with
  | ok read => exact himp read h
  | error fault => exact h

end Yields

/-! ## Literals -/

theorem yields_unitFault {α : Type} (P : α → Prop) (rest : List Char) :
    Yields P (.error (unitFault rest)) := by
  unfold unitFault
  split <;> trivial

theorem yields_consText {c : Char} {outcome : Except Fault (List Char × List Char)}
    (hc : c ≠ escape) (h : Reads (escape ∉ ·) outcome) :
    Reads (escape ∉ ·) (consText c outcome) := by
  cases outcome with
  | ok read =>
    refine ⟨fun hmem => ?_, h.2⟩
    rcases List.mem_cons.1 hmem with heq | hmem
    · exact hc heq.symm
    · exact h.1 hmem
  | error fault => exact h

theorem letterEscape?_ne_escape {letter : Char} : letterEscape? letter ≠ some escape := by
  unfold letterEscape?
  split <;> decide

theorem ofNat_ne_escape {unit : Nat} (h : unit ≠ escape.toNat) : Char.ofNat unit ≠ escape := by
  intro heq
  by_cases hvalid : unit.isValidChar
  · have hunit : (Char.ofNat unit).toNat = unit := by
      rw [Char.ofNat, dif_pos hvalid]
      rfl
    rw [heq] at hunit
    exact h hunit.symm
  · rw [Char.ofNat, dif_neg hvalid] at heq
    exact absurd heq (by decide)

theorem pairChar_ne_escape (leading trailing : Nat) : pairChar leading trailing ≠ escape := by
  have hescape : escape.toNat = 0x1b := rfl
  exact ofNat_ne_escape (by omega)

/-- A character that readers take as it is. -/
theorem ne_backslash {c : Char} {rest : List Char} (hend : c = '\\' → rest = [] → False)
    (hescaped : ∀ letter more, c = '\\' → rest = letter :: more → False) : c ≠ '\\' := by
  intro hc
  cases rest with
  | nil => exact hend hc rfl
  | cons letter rest => exact hescaped letter rest hc rfl

/-- A tame literal is read to a text without escape characters. -/
theorem yields_readLiteral {text : List Char} (h : Tame text) :
    Reads (escape ∉ ·) (readLiteral text) := by
  fun_induction readLiteral text
  case case2 rest => exact ⟨List.not_mem_nil, h.tail (by decide)⟩
  case case9 hunit _ _ _ _ _ _ _ _ htrailing _ ih =>
    have hrest := ((h.unit hunit).2.unit htrailing).2
    exact yields_consText (pairChar_ne_escape _ _) (ih hrest)
  case case14 hunit _ _ ih =>
    obtain ⟨hne, hrest⟩ := h.unit hunit
    exact yields_consText (ofNat_ne_escape hne) (ih hrest)
  case case16 letter _ _ c hletter ih =>
    have hc : c ≠ escape := by
      rintro rfl
      exact letterEscape?_ne_escape hletter
    exact yields_consText hc (ih h.letter)
  case case19 c rest _ hend _ hescaped hshown ih =>
    have hc : c ≠ escape := by
      rintro rfl
      exact hshown (by decide)
    exact yields_consText hc (ih (h.tail (ne_backslash hend hescaped)))
  -- What is left are faults, which name nothing.
  all_goals first | exact yields_unitFault _ _ | trivial

/-- What follows a tame literal is tame. -/
theorem yields_skipLiteral {text : List Char} (h : Tame text) :
    Yields Tame (skipLiteral text) := by
  fun_induction skipLiteral text
  case case2 rest => exact h.tail (by decide)
  case case4 hunit ih =>
    obtain ⟨unit, hunit⟩ := Option.isSome_iff_exists.1 hunit
    exact ih (h.unit hunit).2
  case case7 ih => exact ih h.letter
  case case10 hend _ hescaped _ ih => exact ih (h.tail (ne_backslash hend hescaped))
  all_goals first | exact yields_unitFault _ _ | trivial

/-! ## Words and numbers -/

theorem yields_readWord {expected : List Char} (hexpected : '\\' ∉ expected) {text : List Char}
    (h : Tame text) : Yields Tame (readWord expected text) := by
  induction expected generalizing text with
  | nil => exact h
  | cons e expected ih =>
    rw [List.mem_cons, not_or] at hexpected
    cases text with
    | nil => trivial
    | cons c rest =>
      rw [readWord]
      split
      · rename_i heq
        exact ih hexpected.2 (h.tail fun hc => hexpected.1 (heq.trans hc).symm)
      · trivial

theorem Tame.afterDigits {text : List Char} (h : Tame text) : Tame (takeDigits text).2 :=
  h.dropWhile rfl

theorem Tame.afterSign {text : List Char} (h : Tame text) : Tame (takeSign text).2 := by
  unfold takeSign
  split
  · exact h.tail (by decide)
  · exact h.tail (by decide)
  · exact h

theorem ne_backslash_of_isDigit {c : Char} (h : c.isDigit = true) : c ≠ '\\' := by
  rintro rfl
  cases h

theorem ne_backslash_of_startsExponent {c : Char} (h : startsExponent c = true) : c ≠ '\\' := by
  rintro rfl
  cases h

theorem yields_skipScaled {text : List Char} (h : Tame text) : Yields Tame (skipScaled text) := by
  have hafter := h.afterSign
  unfold skipScaled
  split
  · trivial
  · rename_i c rest hdigits
    rw [hdigits] at hafter
    split
    · rename_i hc
      exact (hafter.tail (ne_backslash_of_isDigit hc)).afterDigits
    · trivial

theorem yields_skipExponent {text : List Char} (h : Tame text) :
    Yields Tame (skipExponent text) := by
  cases text with
  | nil => exact h
  | cons c rest =>
    rw [skipExponent]
    split
    · rename_i hc
      exact yields_skipScaled (h.tail (ne_backslash_of_startsExponent hc))
    · exact h

theorem yields_skipNumberEnd {text : List Char} (h : Tame text) :
    Yields Tame (skipNumberEnd text) := by
  unfold skipNumberEnd
  split
  · rename_i rest
    have hafter := (h.tail (by decide)).afterDigits
    split
    · trivial
    · rename_i digits rest _ hdigits
      rw [hdigits] at hafter
      exact yields_skipExponent hafter
  · exact yields_skipExponent h

theorem yields_skipNumber {text : List Char} (h : Tame text) : Yields Tame (skipNumber text) := by
  unfold skipNumber
  split
  · trivial
  · split
    · trivial
    · exact yields_skipNumberEnd (h.tail (by decide))
  · split
    · rename_i hc
      exact yields_skipNumberEnd (h.tail (ne_backslash_of_isDigit hc)).afterDigits
    · trivial

/-! ## Values that nobody asked for -/

theorem yields_readColon {text : List Char} (h : Tame text) : Yields Tame (readColon text) := by
  unfold readColon
  split
  · rename_i rest hcolon
    exact h.after (by decide) hcolon
  · trivial
  · trivial

/-- Wherever skipping stands, the rest of the text is tame. -/
def Skipped.Tame : Skipped → Prop
  | .inside _ rest => Json.Tame rest
  | .complete rest => Json.Tame rest

theorem yields_enter (bracket : Bracket) (outer : List Bracket) {text : List Char}
    (h : Tame text) : Yields Skipped.Tame (enter bracket outer text) := by
  cases bracket with
  | list => exact h
  | object =>
    unfold enter
    dsimp only
    split
    · rename_i rest hkey
      apply (yields_skipLiteral (h.after (by decide) hkey)).bind
      intro rest hrest
      apply (yields_readColon hrest).bind
      intro rest hrest
      exact hrest
    · trivial
    · trivial

theorem yields_leave (brackets : List Bracket) {text : List Char} (h : Tame text) :
    Yields Skipped.Tame (leave brackets text) := by
  induction brackets generalizing text with
  | nil => exact h
  | cons bracket outer ih =>
    cases bracket with
    | list =>
      unfold leave
      split
      · rename_i rest hclose
        exact ih (h.after (by decide) hclose)
      · rename_i rest hcomma
        exact yields_enter .list outer (h.after (by decide) hcomma)
      · trivial
      · trivial
    | object =>
      unfold leave
      split
      · rename_i rest hclose
        exact ih (h.after (by decide) hclose)
      · rename_i rest hcomma
        exact yields_enter .object outer (h.after (by decide) hcomma)
      · trivial
      · trivial

theorem yields_openBracket (bracket : Bracket) (outer : List Bracket) {text : List Char}
    (h : Tame text) : Yields Skipped.Tame (openBracket bracket outer text) := by
  unfold openBracket
  split
  · rename_i rest hclose
    exact yields_leave outer (h.after (by decide) hclose)
  · rename_i rest hclose
    exact yields_leave outer (h.after (by decide) hclose)
  · trivial
  · trivial
  · exact yields_enter _ outer h.skipSpace

theorem yields_skipStep (brackets : List Bracket) {text : List Char} (h : Tame text) :
    Yields Skipped.Tame (skipStep brackets text) := by
  have hleave (rest : List Char) (hrest : Tame rest) :
      Yields Skipped.Tame (leave brackets rest) := yields_leave brackets hrest
  unfold skipStep
  split
  · trivial
  · rename_i rest hfirst
    exact (yields_readWord (by decide) (h.after (by decide) hfirst)).bind hleave
  · rename_i rest hfirst
    exact (yields_readWord (by decide) (h.after (by decide) hfirst)).bind hleave
  · rename_i rest hfirst
    exact (yields_readWord (by decide) (h.after (by decide) hfirst)).bind hleave
  · rename_i rest hfirst
    exact (yields_skipNumber (h.after (by decide) hfirst)).bind hleave
  · rename_i rest hfirst
    exact (yields_skipLiteral (h.after (by decide) hfirst)).bind hleave
  · rename_i rest hfirst
    exact yields_openBracket .list brackets (h.after (by decide) hfirst)
  · rename_i rest hfirst
    exact yields_openBracket .object brackets (h.after (by decide) hfirst)
  · rename_i c rest _ _ _ _ _ _ _ hfirst
    split
    · exact (yields_skipNumber (hfirst ▸ h.skipSpace)).bind hleave
    · trivial

theorem yields_skipFrom (fuel : Nat) (brackets : List Bracket) {text : List Char}
    (h : Tame text) : Yields Tame (skipFrom fuel brackets text) := by
  induction fuel generalizing brackets text with
  | zero => trivial
  | succ fuel ih =>
    have hstep := yields_skipStep brackets h
    unfold skipFrom
    split
    · rename_i brackets rest heq
      rw [heq] at hstep
      exact ih brackets hstep
    · rename_i rest heq
      rw [heq] at hstep
      exact hstep
    · rename_i fault heq
      rw [heq] at hstep
      exact hstep

theorem yields_skipValue {text : List Char} (h : Tame text) : Yields Tame (skipValue text) :=
  yields_skipFrom (text.length + 1) [] h

end FeatureDigest.Json
