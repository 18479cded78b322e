import FeatureDigest.Proofs.Json.Grammar

/-!
# Decoding JSON

A decoder for all JSON documents.  It finds the value that a text spells, whatever value
this is and with whatever gaps (`decode_of_spells`), so a text spells one value at most
(`Spells.unique`).
-/

set_option autoImplicit false

namespace FeatureDigest.Json

/-! ## The decoder -/

/-- What stands in a text in front of the rest of it. -/
def front (text rest : List Char) : List Char := text.take (text.length - rest.length)

/-- Takes a literal after its opening quote. -/
def takeLiteral (text : List Char) : Option (List Char × List Char) :=
  match skipLiteral text with
  | .ok rest => some ((front text rest).dropLast, rest)
  | .error _ => none

/-- Skips a numeral. -/
def skipNumeral : List Char → Except Fault (List Char)
  | '-' :: rest => skipNumber rest
  | text => skipNumber text

/-- Takes a numeral. -/
def takeNumeral (text : List Char) : Option (List Char × List Char) :=
  match skipNumeral text with
  | .ok rest => some (front text rest, rest)
  | .error _ => none

section Items

variable {α : Type} (item : List Char → Option (α × List Char)) (close : Char)

/-- Takes items up to a closing bracket, so many at most. -/
def takeItems : (count : Nat) → List Char → Option (List α × List Char)
  | 0, _ => none
  | count + 1, text =>
    match item (skipSpace text) with
    | none => none
    | some (found, rest) =>
      match skipSpace rest with
      | [] => none
      | c :: rest =>
        if c = close then some ([found], rest)
        else if c = ',' then
          (takeItems count rest).map fun items => (found :: items.1, items.2)
        else none

/-- Takes the items after an opening bracket, if there are any. -/
def takeList (text : List Char) : Option (List α × List Char) :=
  match skipSpace text with
  | [] => none
  | c :: rest =>
    if c = close then some ([], rest) else takeItems item close text.length text

end Items

/-- Takes a member of an object. -/
def takeMember (value : List Char → Option (Datum × List Char)) :
    List Char → Option ((List Char × Datum) × List Char)
  | '"' :: text =>
    match takeLiteral text with
    | none => none
    | some (key, rest) =>
      match skipSpace rest with
      | ':' :: rest => (value (skipSpace rest)).map fun found => ((key, found.1), found.2)
      | _ => none
  | _ => none

/-- Takes a value, nested so deep at most. -/
def takeValue : (depth : Nat) → List Char → Option (Datum × List Char)
  | 0, _ => none
  | depth + 1, text =>
    match text with
    | 'n' :: 'u' :: 'l' :: 'l' :: rest => some (.null, rest)
    | 't' :: 'r' :: 'u' :: 'e' :: rest => some (.boolean true, rest)
    | 'f' :: 'a' :: 'l' :: 's' :: 'e' :: rest => some (.boolean false, rest)
    | '"' :: rest => (takeLiteral rest).map fun found => (.literal found.1, found.2)
    | '[' :: rest =>
      (takeList (takeValue depth) ']' rest).map fun found => (.list found.1, found.2)
    | '\x7b' :: rest =>
      (takeList (takeMember (takeValue depth)) '\x7d' rest).map
        fun found => (.object found.1, found.2)
    | text => (takeNumeral text).map fun found => (.numeral found.1, found.2)

/-- The value of a whole document. -/
def decode (text : List Char) : Option Datum :=
  match takeValue text.length (skipSpace text) with
  | some (datum, rest) => if (skipSpace rest).isEmpty then some datum else none
  | none => none

/-! ## Literals -/

theorem front_append (text rest : List Char) : front (text ++ rest) rest = text := by
  rw [front, List.length_append, Nat.add_sub_cancel, List.take_left]

theorem skipLiteral_of_isLiteral {spelling : List Char} (h : IsLiteral spelling)
    (rest : List Char) : skipLiteral (spelling ++ '"' :: rest) = .ok rest := by
  induction h with
  | nil => simp [skipLiteral]
  | plain hquote hbackslash hcontrol _ ih =>
    rw [List.cons_append, skipLiteral]
    · rw [if_neg hcontrol]
      exact ih
    all_goals simp [hquote, hbackslash]
  | @letter letter c spelling hescape _ ih =>
    have hu : letter ≠ 'u' := by
      rintro rfl
      simp [letterEscape?] at hescape
    rw [List.cons_append, List.cons_append, skipLiteral]
    · rw [hescape, if_pos (Option.isSome_some)]
      exact ih
    · simpa using hu
  | unit hdigits _ ih =>
    simp only [List.cons_append, skipLiteral, hdigits, Option.isSome_some, if_true]
    exact ih

theorem takeLiteral_of_isLiteral {spelling : List Char} (h : IsLiteral spelling)
    (rest : List Char) : takeLiteral (spelling ++ '"' :: rest) = some (spelling, rest) := by
  have hfront : front (spelling ++ '"' :: rest) rest = spelling ++ ['"'] := by
    have happend := front_append (spelling ++ ['"']) rest
    rwa [List.append_assoc, List.singleton_append] at happend
  simp only [takeLiteral, skipLiteral_of_isLiteral h, hfront, List.dropLast_concat]

/-! ## Numerals -/

/-- A text does not start with a digit. -/
def NoDigit (text : List Char) : Prop := ∀ c, text.head? = some c → c.isDigit = false

/-- A numeral goes on with the character. -/
def continues (c : Char) : Bool := c.isDigit || c == '.' || startsExponent c

/-- A numeral does not go on with the text. -/
def Ends (text : List Char) : Prop := ∀ c, text.head? = some c → continues c = false

theorem ends_nil : Ends [] := by
  intro c hc
  cases hc

theorem ends_cons {c : Char} (h : continues c = false) (rest : List Char) :
    Ends (c :: rest) := by
  intro first hfirst
  cases hfirst
  exact h

theorem ends_gap {gap rest : List Char} (hgap : IsGap gap) (hrest : Ends rest) :
    Ends (gap ++ rest) := by
  cases gap with
  | nil => exact hrest
  | cons blank gap =>
    have hblank := hgap blank List.mem_cons_self
    simp only [isSpace, Bool.or_eq_true, beq_iff_eq] at hblank
    rcases hblank with ((rfl | rfl) | rfl) | rfl <;> exact ends_cons rfl _

theorem Ends.noDigit {text : List Char} (h : Ends text) : NoDigit text := by
  intro c hc
  have hcontinues := h c hc
  simp only [continues, Bool.or_eq_false_iff] at hcontinues
  exact hcontinues.1.1

theorem takeDigits_append {digits rest : List Char} (h : ∀ c ∈ digits, c.isDigit = true)
    (hrest : NoDigit rest) : takeDigits (digits ++ rest) = (digits, rest) := by
  have hnone : rest.takeWhile Char.isDigit = [] ∧ rest.dropWhile Char.isDigit = rest := by
    cases rest with
    | nil => exact ⟨rfl, rfl⟩
    | cons c rest =>
      have hc := hrest c rfl
      simp [hc]
  rw [takeDigits, List.takeWhile_append_of_pos h, List.dropWhile_append_of_pos h, hnone.1,
    hnone.2, List.append_nil]

theorem skipScaled_of_isDigits {sign digits rest : List Char}
    (hsign : sign = [] ∨ sign = ['+'] ∨ sign = ['-']) (hdigits : IsDigits digits)
    (hrest : NoDigit rest) : skipScaled (sign ++ (digits ++ rest)) = .ok rest := by
  obtain ⟨lead, digits, rfl⟩ := List.exists_cons_of_ne_nil hdigits.ne_nil
  have hlead := hdigits.isDigit lead List.mem_cons_self
  have hothers : ∀ c ∈ digits, c.isDigit = true :=
    fun c hc => hdigits.isDigit c (List.mem_cons_of_mem lead hc)
  have hplus : lead ≠ '+' := by
    rintro rfl
    cases hlead
  have hminus : lead ≠ '-' := by
    rintro rfl
    cases hlead
  have hsigned : (takeSign (sign ++ lead :: (digits ++ rest))).2 = lead :: (digits ++ rest) := by
    rcases hsign with rfl | rfl | rfl
    · simp [takeSign, hplus, hminus]
    · rfl
    · rfl
  simp only [List.cons_append, skipScaled, hsigned, hlead, if_true,
    takeDigits_append hothers hrest]

theorem skipExponent_of_isExponent {exponent rest : List Char} (h : IsExponent exponent)
    (hrest : Ends rest) : skipExponent (exponent ++ rest) = .ok rest := by
  cases h with
  | none =>
    rw [List.nil_append]
    cases rest with
    | nil => rfl
    | cons c rest =>
      have hcontinues := hrest c rfl
      simp only [continues, Bool.or_eq_false_iff] at hcontinues
      simp only [skipExponent, hcontinues.2, Bool.false_eq_true, if_false]
  | some hstarts hsigned hdecimal =>
    simp only [List.cons_append, List.append_assoc, skipExponent, hstarts, if_true,
      skipScaled_of_isDigits hsigned hdecimal hrest.noDigit]

/-- What follows the integer part of a numeral does not start with a digit. -/
theorem noDigit_of_isExponent {exponent rest : List Char} (h : IsExponent exponent)
    (hrest : Ends rest) : NoDigit (exponent ++ rest) := by
  cases h with
  | none => exact hrest.noDigit
  | some hstarts _ _ =>
    intro c hc
    cases hc
    simp only [startsExponent, Bool.or_eq_true, beq_iff_eq] at hstarts
    rcases hstarts with rfl | rfl <;> rfl

theorem noDigit_of_isFraction {fraction rest : List Char} (h : IsFraction fraction)
    (hrest : NoDigit rest) : NoDigit (fraction ++ rest) := by
  cases h with
  | none => exact hrest
  | some _ =>
    intro c hc
    cases hc
    rfl

theorem skipNumberEnd_of_isFraction {fraction exponent rest : List Char}
    (hfraction : IsFraction fraction) (hexponent : IsExponent exponent) (hrest : Ends rest) :
    skipNumberEnd (fraction ++ (exponent ++ rest)) = .ok rest := by
  cases hfraction with
  | none =>
    have hpoint : ∀ more, exponent ++ rest ≠ '.' :: more := by
      intro more heq
      cases hexponent with
      | none =>
        have hcontinues := hrest '.' (by rw [show rest = '.' :: more from heq]; rfl)
        exact absurd hcontinues (by decide)
      | some hstarts _ _ =>
        cases heq
        exact absurd hstarts (by decide)
    rw [List.nil_append, skipNumberEnd]
    · exact skipExponent_of_isExponent hexponent hrest
    · exact hpoint
  | some hdecimal =>
    have hdigits := takeDigits_append hdecimal.isDigit (noDigit_of_isExponent hexponent hrest)
    rw [List.cons_append, skipNumberEnd, hdigits]
    split
    · rename_i heq
      cases heq
      exact absurd rfl hdecimal.ne_nil
    · rename_i heq
      cases heq
      exact skipExponent_of_isExponent hexponent hrest

theorem skipNumber_of_isMagnitude {digits rest : List Char} (h : IsMagnitude digits)
    (hrest : Ends rest) : skipNumber (digits ++ rest) = .ok rest := by
  cases h with
  | @parts whole fraction exponent hwhole hfraction hexponent =>
    have hend := skipNumberEnd_of_isFraction hfraction hexponent hrest
    have hnoDigit := noDigit_of_isFraction hfraction (noDigit_of_isExponent hexponent hrest)
    rw [List.append_assoc, List.append_assoc]
    generalize fraction ++ (exponent ++ rest) = after at hend hnoDigit
    cases hwhole with
    | zero =>
      have hhead : (after.head?.map Char.isDigit).getD false = false := by
        cases after with
        | nil => rfl
        | cons c after => exact hnoDigit c rfl
      rw [List.singleton_append, skipNumber, hhead, if_neg (by decide), hend]
    | other hdecimal hlead =>
      obtain ⟨lead, digits, rfl⟩ := List.exists_cons_of_ne_nil hdecimal.ne_nil
      have hdigit := hdecimal.isDigit lead List.mem_cons_self
      have hzero : lead ≠ '0' := by
        rintro rfl
        exact hlead rfl
      have htake := takeDigits_append hdecimal.isDigit hnoDigit
      rw [List.cons_append] at htake ⊢
      rw [skipNumber]
      · have hrest : (takeDigits (digits ++ after)).2 = after := by
          rw [takeDigits_append _ hnoDigit]
          exact fun c hc => hdecimal.isDigit c (List.mem_cons_of_mem lead hc)
        rw [if_pos hdigit, hrest, hend]
      · exact hzero

theorem IsMagnitude.first {digits : List Char} (h : IsMagnitude digits) :
    ∃ c rest, digits = c :: rest ∧ c.isDigit = true := by
  cases h with
  | parts hwhole _ _ =>
    cases hwhole with
    | zero => exact ⟨'0', _, rfl, rfl⟩
    | other hdecimal _ =>
      obtain ⟨lead, digits, rfl⟩ := List.exists_cons_of_ne_nil hdecimal.ne_nil
      exact ⟨lead, _, rfl, hdecimal.isDigit lead List.mem_cons_self⟩

/-- A numeral starts with a digit or a minus sign. -/
theorem IsNumeral.first {spelling : List Char} (h : IsNumeral spelling) :
    ∃ c rest, spelling = c :: rest ∧ (c.isDigit = true ∨ c = '-') := by
  cases h with
  | positive hmagnitude =>
    obtain ⟨c, rest, heq, hdigit⟩ := hmagnitude.first
    exact ⟨c, rest, heq, Or.inl hdigit⟩
  | negative _ => exact ⟨'-', _, rfl, Or.inr rfl⟩

theorem takeNumeral_of_isNumeral {spelling rest : List Char} (h : IsNumeral spelling)
    (hrest : Ends rest) : takeNumeral (spelling ++ rest) = some (spelling, rest) := by
  have hskip : skipNumeral (spelling ++ rest) = .ok rest := by
    cases h with
    | negative hmagnitude => exact skipNumber_of_isMagnitude hmagnitude hrest
    | positive hmagnitude =>
      have hnumber := skipNumber_of_isMagnitude hmagnitude hrest
      obtain ⟨c, digits, rfl, hdigit⟩ := hmagnitude.first
      have hminus : c ≠ '-' := by
        rintro rfl
        cases hdigit
      simpa [skipNumeral, hminus] using hnumber
  simp only [takeNumeral, hskip, front_append]

/-! ## Lists and objects -/

/-- The character ends a list or an object. -/
def closes (c : Char) : Bool := c == ']' || c == '\x7d'

theorem closes_list : closes ']' = true := rfl

theorem closes_object : closes '\x7d' = true := rfl

theorem closes_cases {c : Char} (h : closes c = true) : c = ']' ∨ c = '\x7d' := by
  simpa only [closes, Bool.or_eq_true, beq_iff_eq] using h

theorem isSpace_of_closes {c : Char} (h : closes c = true) : isSpace c = false := by
  rcases closes_cases h with rfl | rfl <;> rfl

theorem continues_of_closes {c : Char} (h : closes c = true) : continues c = false := by
  rcases closes_cases h with rfl | rfl <;> rfl

/-- A text starts with a character that neither separates tokens nor ends a container. -/
def Starts (text : List Char) : Prop :=
  ∃ c rest, text = c :: rest ∧ isSpace c = false ∧ closes c = false

theorem Starts.skipSpace {text : List Char} (h : Starts text) {gap : List Char}
    (hgap : IsGap gap) (rest : List Char) :
    Json.skipSpace (gap ++ (text ++ rest)) = text ++ rest := by
  obtain ⟨c, more, rfl, hspace, _⟩ := h
  rw [skipSpace_append hgap, List.cons_append, skipSpace_of_not_isSpace hspace]

theorem skipSpace_isGap {gap : List Char} (h : IsGap gap) : skipSpace gap = [] := by
  have hskip := skipSpace_append h []
  rwa [List.append_nil] at hskip

theorem skipSpace_gap {gap : List Char} (hgap : IsGap gap) {c : Char} (h : isSpace c = false)
    (rest : List Char) : skipSpace (gap ++ c :: rest) = c :: rest := by
  rw [skipSpace_append hgap, skipSpace_of_not_isSpace h]

theorem Spells.starts {text : List Char} {datum : Datum} (h : Spells text datum) :
    Starts text := by
  cases h with
  | null => exact ⟨'n', _, rfl, rfl, rfl⟩
  | yes => exact ⟨'t', _, rfl, rfl, rfl⟩
  | no => exact ⟨'f', _, rfl, rfl, rfl⟩
  | literal _ => exact ⟨'"', _, rfl, rfl, rfl⟩
  | noValues _ => exact ⟨'[', _, rfl, rfl, rfl⟩
  | values _ => exact ⟨'[', _, rfl, rfl, rfl⟩
  | noMembers _ => exact ⟨'\x7b', _, rfl, rfl, rfl⟩
  | members _ => exact ⟨'\x7b', _, rfl, rfl, rfl⟩
  | numeral hnumeral =>
    obtain ⟨c, rest, heq, hfirst⟩ := hnumeral.first
    refine ⟨c, rest, heq, ?_, ?_⟩
    · apply Bool.eq_false_iff.2
      intro hspace
      simp only [isSpace, Bool.or_eq_true, beq_iff_eq] at hspace
      rcases hspace with ((rfl | rfl) | rfl) | rfl <;> exact absurd hfirst (by decide)
    · apply Bool.eq_false_iff.2
      intro hcloses
      rcases closes_cases hcloses with rfl | rfl <;> exact absurd hfirst (by decide)

theorem Member.starts {text : List Char} {member : List Char × Datum}
    (h : Member Spells text member) : Starts text := by
  cases h with
  | pair _ _ _ _ => exact ⟨'"', _, rfl, rfl, rfl⟩

/-- An item reader takes the items whose texts are so long at most. -/
structure Takes {α : Type} (Item : List Char → α → Prop)
    (item : List Char → Option (α × List Char)) (length : Nat) : Prop where
  starts : ∀ text found, Item text found → Starts text
  takes : ∀ text found, Item text found → text.length ≤ length →
    ∀ rest, Ends rest → item (text ++ rest) = some (found, rest)

section Items

variable {α : Type} {Item : List Char → α → Prop} {item : List Char → Option (α × List Char)}
variable {close : Char}

theorem Takes.mono {length less : Nat} (h : Takes Item item length) (hle : less ≤ length) :
    Takes Item item less := by
  refine ⟨h.starts, ?_⟩
  intro text found hspelled hlength
  exact h.takes text found hspelled (Nat.le_trans hlength hle)

theorem takeItems_of_separated {body : List Char} {items : List α} {count : Nat}
    (h : Separated Item body items) (htakes : Takes Item item body.length)
    (hclose : closes close = true) (hcount : body.length < count)
    (rest : List Char) :
    takeItems item close count (body ++ close :: rest) = some (items, rest) := by
  induction h generalizing count with
  | @last before text after found hlead hspelled htrail =>
    obtain ⟨count, rfl⟩ : ∃ less, count = less + 1 := ⟨count - 1, by omega⟩
    have hends : Ends (after ++ close :: rest) :=
      ends_gap htrail (ends_cons (continues_of_closes hclose) rest)
    have hlength : text.length ≤ (before ++ (text ++ after)).length := by
      simp only [List.length_append]
      omega
    have hstarts := htakes.starts text found hspelled
    have hfound := htakes.takes text found hspelled hlength _ hends
    have hspace := isSpace_of_closes hclose
    simp only [takeItems, List.append_assoc, hstarts.skipSpace hlead, hfound,
      skipSpace_gap htrail hspace, if_true]
  | @more before text after more found items hlead hspelled htrail hothers ih =>
    obtain ⟨count, rfl⟩ : ∃ less, count = less + 1 := ⟨count - 1, by omega⟩
    have hends : Ends (after ++ ',' :: (more ++ close :: rest)) := ends_gap htrail (ends_cons rfl _)
    have hlengths : text.length ≤ (before ++ (text ++ (after ++ ',' :: more))).length ∧
        more.length < (before ++ (text ++ (after ++ ',' :: more))).length := by
      simp only [List.length_append, List.length_cons]
      omega
    have hstarts := htakes.starts text found hspelled
    have hfound := htakes.takes text found hspelled hlengths.1 _ hends
    have hless : more.length < count := by omega
    have hmore := ih (htakes.mono (Nat.le_of_lt hlengths.2)) hless
    have hcomma : ',' ≠ close := by
      rintro rfl
      cases hclose
    have hspace : isSpace ',' = false := rfl
    simp only [takeItems, List.append_assoc, List.cons_append, hstarts.skipSpace hlead, hfound,
      skipSpace_gap htrail hspace, if_neg hcomma, if_true, hmore, Option.map_some]

theorem takeList_of_isGap {gap : List Char} (hgap : IsGap gap)
    (hclose : closes close = true) (rest : List Char) :
    takeList item close (gap ++ close :: rest) = some ([], rest) := by
  have hspace := isSpace_of_closes hclose
  simp only [takeList, skipSpace_gap hgap hspace, if_true]

theorem Separated.starts {body : List Char} {items : List α}
    (h : Separated Item body items) (htakes : Takes Item item body.length) :
    ∃ gap text, body = gap ++ text ∧ IsGap gap ∧ Starts text := by
  cases h with
  | @last before text after found hlead hspelled _ =>
    obtain ⟨c, rest, rfl, hc⟩ := htakes.starts text found hspelled
    exact ⟨before, _, rfl, hlead, c, _, rfl, hc⟩
  | @more before text after rest found items hlead hspelled _ _ =>
    obtain ⟨c, rest, rfl, hc⟩ := htakes.starts text found hspelled
    exact ⟨before, _, rfl, hlead, c, _, rfl, hc⟩

theorem takeList_of_separated {body : List Char} {items : List α}
    (h : Separated Item body items) (htakes : Takes Item item body.length)
    (hclose : closes close = true) (rest : List Char) :
    takeList item close (body ++ close :: rest) = some (items, rest) := by
  have hcount : body.length < (body ++ close :: rest).length := by
    simp only [List.length_append, List.length_cons]
    omega
  have hitems := takeItems_of_separated h htakes hclose hcount rest
  obtain ⟨gap, text, hbody, hgap, c, more, rfl, hspace, hcloses⟩ := h.starts htakes
  have hfirst : skipSpace (body ++ close :: rest) = c :: (more ++ close :: rest) := by
    rw [hbody, List.append_assoc, List.cons_append, skipSpace_gap hgap hspace]
  have hne : c ≠ close := by
    rintro rfl
    rw [hclose] at hcloses
    cases hcloses
  simp only [takeList, hfirst, if_neg hne, hitems]

end Items

theorem Takes.member {value : List Char → Option (Datum × List Char)} {length : Nat}
    (h : Takes Spells value length) : Takes (Member Spells) (takeMember value) length := by
  refine ⟨fun _ _ => Member.starts, ?_⟩
  intro text member hmember hlength rest hrest
  cases hmember with
  | @pair key between before spelling found hname hmiddle hlead hspelled =>
    have hshort : spelling.length ≤ length := by
      simp only [List.length_append, List.length_cons] at hlength
      omega
    have hstarts := h.starts spelling found hspelled
    have hfound := h.takes spelling found hspelled hshort rest hrest
    have hcolon : isSpace ':' = false := rfl
    simp only [takeMember, List.cons_append, List.append_assoc,
      takeLiteral_of_isLiteral hname, skipSpace_gap hmiddle hcolon, hstarts.skipSpace hlead,
      hfound, Option.map_some]

/-! ## Whole documents -/

/-- A value that is a numeral is taken as one. -/
theorem takeValue_numeral {depth : Nat} {spelling rest : List Char}
    (h : IsNumeral spelling) (hrest : Ends rest) :
    takeValue (depth + 1) (spelling ++ rest) = some (.numeral spelling, rest) := by
  have htake := takeNumeral_of_isNumeral h hrest
  obtain ⟨c, digits, rfl, hfirst⟩ := h.first
  have hne (other : Char) (hother : ¬ (other.isDigit = true ∨ other = '-')) : c ≠ other := by
    rintro rfl
    exact hother hfirst
  rw [List.cons_append] at htake ⊢
  rw [takeValue, htake]
  · rfl
  all_goals
    simp [hne 'n' (by decide), hne 't' (by decide), hne 'f' (by decide), hne '"' (by decide),
      hne '[' (by decide), hne '\x7b' (by decide)]

/-- A value is taken whatever it is nested in, and whatever is nested in it. -/
theorem takes_takeValue (depth : Nat) : Takes Spells (takeValue depth) depth := by
  refine ⟨fun _ _ => Spells.starts, ?_⟩
  induction depth with
  | zero =>
    intro text datum hspelled hlength
    obtain ⟨c, rest, rfl, _⟩ := hspelled.starts
    exact absurd hlength (by simp)
  | succ depth ih =>
    have hvalue : Takes Spells (takeValue depth) depth := ⟨fun _ _ => Spells.starts, ih⟩
    intro text datum hspelled hlength rest hrest
    cases hspelled with
    | null => rfl
    | yes => rfl
    | no => rfl
    | numeral hnumeral => exact takeValue_numeral hnumeral hrest
    | literal hliteral =>
      simp only [List.cons_append, List.append_assoc, List.nil_append, takeValue,
        takeLiteral_of_isLiteral hliteral, Option.map_some]
    | noValues hgap =>
      simp only [List.cons_append, List.append_assoc, List.nil_append, takeValue,
        takeList_of_isGap hgap closes_list, Option.map_some]
    | @values body values hitems =>
      have hbody : body.length ≤ depth := by
        simp only [List.length_append, List.length_cons] at hlength
        omega
      have hlist := takeList_of_separated hitems (hvalue.mono hbody) closes_list rest
      simp only [List.cons_append, List.append_assoc, List.nil_append, takeValue, hlist,
        Option.map_some]
    | noMembers hgap =>
      simp only [List.cons_append, List.append_assoc, List.nil_append, takeValue,
        takeList_of_isGap hgap closes_object, Option.map_some]
    | @members body members hitems =>
      have hbody : body.length ≤ depth := by
        simp only [List.length_append, List.length_cons] at hlength
        omega
      have hlist :=
        takeList_of_separated hitems (hvalue.member.mono hbody) closes_object rest
      simp only [List.cons_append, List.append_assoc, List.nil_append, takeValue, hlist,
        Option.map_some]

/-- The decoder finds what a text spells, with gaps in front of it and after it. -/
theorem decode_of_spells {before text after : List Char} {datum : Datum}
    (hlead : IsGap before) (h : Spells text datum) (htrail : IsGap after) :
    decode (before ++ (text ++ after)) = some datum := by
  have hends : Ends after := by
    have hgap := ends_gap htrail ends_nil
    rwa [List.append_nil] at hgap
  have hlength : text.length ≤ (before ++ (text ++ after)).length := by
    simp only [List.length_append]
    omega
  have htake := (takes_takeValue _).takes text datum h hlength after hends
  simp only [decode, h.starts.skipSpace hlead, htake, skipSpace_isGap htrail,
    List.isEmpty_nil, if_true]

example : decode "\t[0, \x7b\"a\\n\" : -1.50e+2\x7d]\n".toList
    = some (.list [.numeral ['0'],
        .object [(['a', '\\', 'n'], .numeral ['-', '1', '.', '5', '0', 'e', '+', '2'])]]) := rfl

/-- A text spells one value at most. -/
theorem Spells.unique {text : List Char} {first second : Datum} (hfirst : Spells text first)
    (hsecond : Spells text second) : first = second := by
  have hdecode := decode_of_spells isGap_nil hfirst isGap_nil
  rw [decode_of_spells isGap_nil hsecond isGap_nil] at hdecode
  exact (Option.some.inj hdecode).symm

end FeatureDigest.Json
