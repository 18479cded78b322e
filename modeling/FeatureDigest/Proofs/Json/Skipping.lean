import FeatureDigest.Proofs.Json.Decoding

/-!
# Skipped values

Skipping passes over every value that a text spells, whatever is nested in it, and stops where the
value ends (`skipValue_of_spells`).

Skipping keeps no value, only the brackets that are open.  So what is said of a value holds inside
any open brackets (`Passes`): after some steps, skipping stands where these brackets go on behind
the value (`leave`).  The items of a list or an object are passed one after the other
(`enter_separated`), and a value takes fewer steps than it has characters.
-/

set_option autoImplicit false

namespace FeatureDigest.Json

/-! ## Steps -/

/-- Skips on from where skipping stands. -/
def proceed (fuel : Nat) : Except Fault Skipped → Except Fault (List Char)
  | .ok (.inside brackets rest) => skipFrom fuel brackets rest
  | .ok (.complete rest) => .ok rest
  | .error fault => .error fault

theorem skipFrom_succ (fuel : Nat) (brackets : List Bracket) (text : List Char) :
    skipFrom (fuel + 1) brackets text = proceed fuel (skipStep brackets text) := rfl

/-- The character that closes a bracket. -/
def Bracket.close : Bracket → Char
  | .list => ']'
  | .object => '\x7d'

/-- The text between two brackets, with them around it. -/
def Bracket.around (bracket : Bracket) (body : List Char) : List Char :=
  match bracket with
  | .list => '[' :: (body ++ [']'])
  | .object => '\x7b' :: (body ++ ['\x7d'])

theorem Bracket.length_around (bracket : Bracket) (body : List Char) :
    (bracket.around body).length = body.length + 2 := by
  cases bracket <;> simp [around]

theorem skipStep_around (bracket : Bracket) (brackets : List Bracket) (body rest : List Char) :
    skipStep brackets (bracket.around body ++ rest)
      = openBracket bracket brackets (body ++ bracket.close :: rest) := by
  cases bracket <;> rw [Bracket.around, List.cons_append, List.append_assoc] <;> rfl

theorem closes_close (bracket : Bracket) : closes bracket.close = true := by
  cases bracket <;> rfl

theorem skipStep_gap {gap : List Char} (h : IsGap gap) (brackets : List Bracket)
    (text : List Char) : skipStep brackets (gap ++ text) = skipStep brackets text := by
  unfold skipStep
  rw [skipSpace_append h]

theorem leave_close {gap : List Char} (h : IsGap gap) (bracket : Bracket)
    (outer : List Bracket) (rest : List Char) :
    leave (bracket :: outer) (gap ++ bracket.close :: rest) = leave outer rest := by
  have hspace := isSpace_of_closes (closes_close bracket)
  cases bracket <;> rw [leave, skipSpace_gap h hspace] <;> rfl

theorem leave_comma {gap : List Char} (h : IsGap gap) (bracket : Bracket)
    (outer : List Bracket) (rest : List Char) :
    leave (bracket :: outer) (gap ++ ',' :: rest) = enter bracket outer rest := by
  have hspace : isSpace ',' = false := rfl
  cases bracket <;> rw [leave, skipSpace_gap h hspace] <;> rfl

/-- An opening bracket that is not closed at once is entered. -/
theorem openBracket_eq_enter {bracket : Bracket} {outer : List Bracket} {text : List Char}
    {c : Char} {rest : List Char} (h : skipSpace text = c :: rest) (hc : closes c = false) :
    openBracket bracket outer text = enter bracket outer (c :: rest) := by
  have hlist : c ≠ ']' := by
    rintro rfl
    cases hc
  have hobject : c ≠ '\x7d' := by
    rintro rfl
    cases hc
  cases bracket <;> simp [openBracket, h, hlist, hobject]

theorem openBracket_close {gap : List Char} (h : IsGap gap) (bracket : Bracket)
    (outer : List Bracket) (rest : List Char) :
    openBracket bracket outer (gap ++ bracket.close :: rest) = leave outer rest := by
  have hspace := isSpace_of_closes (closes_close bracket)
  unfold openBracket
  rw [skipSpace_gap h hspace]
  cases bracket <;> rfl

/-! ## Scalars -/

/-- Skipping passes over the text, inside any open brackets, in fewer steps than it has
characters. -/
def Passes (text : List Char) : Prop :=
  ∀ brackets rest, Ends rest → ∃ steps < text.length, ∀ fuel,
    proceed (fuel + steps) (skipStep brackets (text ++ rest)) = proceed fuel (leave brackets rest)

/-- A value that one step passes. -/
theorem passes_of_skipStep {text : List Char} (hne : text ≠ [])
    (h : ∀ brackets rest, Ends rest → skipStep brackets (text ++ rest) = leave brackets rest) :
    Passes text := by
  intro brackets rest hrest
  refine ⟨0, List.length_pos_iff.2 hne, ?_⟩
  intro fuel
  rw [h brackets rest hrest, Nat.add_zero]

theorem skipStep_numeral {spelling rest : List Char} (h : IsNumeral spelling)
    (hrest : Ends rest) (brackets : List Bracket) :
    skipStep brackets (spelling ++ rest) = leave brackets rest := by
  cases h with
  | negative hmagnitude =>
    have hminus : isSpace '-' = false := rfl
    rw [List.cons_append, skipStep, skipSpace_of_not_isSpace hminus]
    simp only [skipNumber_of_isMagnitude hmagnitude hrest]
    rfl
  | positive hmagnitude =>
    have hskip := skipNumber_of_isMagnitude hmagnitude hrest
    obtain ⟨c, digits, rfl, hdigit⟩ := hmagnitude.first
    have hne (other : Char) (hother : other.isDigit = false) : c ≠ other := by
      rintro rfl
      rw [hdigit] at hother
      cases hother
    have hspace : isSpace c = false := by
      simp [isSpace, hne ' ' rfl, hne '\n' rfl, hne '\t' rfl, hne '\r' rfl]
    rw [List.cons_append] at hskip ⊢
    rw [skipStep, skipSpace_of_not_isSpace hspace]
    simp [hne 'n' rfl, hne 't' rfl, hne 'f' rfl, hne '-' rfl, hne '"' rfl, hne '[' rfl,
      hne '\x7b' rfl, hdigit, hskip]
    rfl

theorem skipStep_literal {spelling : List Char} (h : IsLiteral spelling)
    (brackets : List Bracket) (rest : List Char) :
    skipStep brackets ('"' :: (spelling ++ '"' :: rest)) = leave brackets rest := by
  have hquote : isSpace '"' = false := rfl
  rw [skipStep, skipSpace_of_not_isSpace hquote]
  simp only [skipLiteral_of_isLiteral h]
  rfl

/-! ## Items -/

/-- Skipping enters a bracket at the text and passes over it. -/
def Enters (bracket : Bracket) (text : List Char) : Prop :=
  ∀ outer gap rest, IsGap gap → Ends rest → ∃ steps ≤ text.length, ∀ fuel,
    proceed (fuel + steps) (enter bracket outer (gap ++ (text ++ rest)))
      = proceed fuel (leave (bracket :: outer) rest)

/-- An element of a list is entered at its value. -/
theorem Passes.enters {text : List Char} (h : Passes text) : Enters .list text := by
  intro outer gap rest hgap hrest
  obtain ⟨steps, hsteps, hpasses⟩ := h (.list :: outer) rest hrest
  refine ⟨steps + 1, hsteps, ?_⟩
  intro fuel
  rw [← hpasses fuel, ← skipStep_gap hgap]
  rfl

/-- A member of an object is entered at its key. -/
theorem Passes.enters_member {key between before text : List Char} (h : Passes text)
    (hkey : IsLiteral key) (hbetween : IsGap between) (hbefore : IsGap before) :
    Enters .object ('"' :: (key ++ '"' :: (between ++ ':' :: (before ++ text)))) := by
  intro outer gap rest hgap hrest
  obtain ⟨steps, hsteps, hpasses⟩ := h (.object :: outer) rest hrest
  refine ⟨steps + 1, ?_, ?_⟩
  · simp only [List.length_cons, List.length_append]
    omega
  · intro fuel
    have hcolon : isSpace ':' = false := rfl
    have hquote : isSpace '"' = false := rfl
    have henter : enter .object outer
        (gap ++ ('"' :: (key ++ '"' :: (between ++ ':' :: (before ++ text))) ++ rest))
          = .ok (.inside (.object :: outer) (before ++ (text ++ rest))) := by
      simp only [enter, List.cons_append, List.append_assoc, skipSpace_gap hgap hquote,
        skipLiteral_of_isLiteral hkey, readColon, skipSpace_gap hbetween hcolon, bind, Except.bind,
        pure, Except.pure]
    rw [henter, ← hpasses fuel, ← skipStep_gap hbefore]
    rfl

/-- Items are passed one after the other, up to the end of the bracket. -/
theorem enter_separated {α : Type} {Item : List Char → α → Prop} {bracket : Bracket}
    {body : List Char} {items : List α} (h : Separated Item body items)
    (henters : ∀ text item, Item text item → text.length ≤ body.length → Enters bracket text)
    (outer : List Bracket) (rest : List Char) :
    ∃ steps ≤ body.length, ∀ fuel,
      proceed (fuel + steps) (enter bracket outer (body ++ bracket.close :: rest))
        = proceed fuel (leave outer rest) := by
  have hclose := continues_of_closes (closes_close bracket)
  induction h with
  | @last before text after item hlead hspelled htrail =>
    have hends : Ends (after ++ bracket.close :: rest) := ends_gap htrail (ends_cons hclose rest)
    have hlength : text.length ≤ (before ++ (text ++ after)).length := by
      simp only [List.length_append]
      omega
    obtain ⟨steps, hsteps, hpasses⟩ :=
      henters text item hspelled hlength outer before _ hlead hends
    refine ⟨steps, Nat.le_trans hsteps hlength, ?_⟩
    intro fuel
    rw [List.append_assoc, List.append_assoc, hpasses fuel, leave_close htrail]
  | @more before text after more item items hlead hspelled htrail hothers ih =>
    have hends : Ends (after ++ ',' :: (more ++ bracket.close :: rest)) :=
      ends_gap htrail (ends_cons rfl _)
    have hlengths : text.length + more.length
        ≤ (before ++ (text ++ (after ++ ',' :: more))).length := by
      simp only [List.length_append, List.length_cons]
      omega
    obtain ⟨first, hfirst, hpassesFirst⟩ :=
      henters text item hspelled (by omega) outer before _ hlead hends
    obtain ⟨others, hothersLength, hpassesOthers⟩ :=
      ih fun text item hitem hle => henters text item hitem (by omega)
    refine ⟨others + first, by omega, ?_⟩
    intro fuel
    simp only [List.append_assoc, List.cons_append, ← Nat.add_assoc]
    rw [hpassesFirst, leave_comma htrail, hpassesOthers]

/-- Items that follow a gap are the same items without it. -/
theorem Separated.trimmed {α : Type} {Item : List Char → α → Prop} {body : List Char}
    {items : List α} (h : Separated Item body items)
    (hstarts : ∀ text item, Item text item → Starts text) :
    ∃ gap c trimmed, body = gap ++ c :: trimmed ∧ IsGap gap ∧ isSpace c = false ∧
      closes c = false ∧ Separated Item (c :: trimmed) items := by
  cases h with
  | @last before text after item hlead hspelled htrail =>
    obtain ⟨c, more, rfl, hspace, hcloses⟩ := hstarts text item hspelled
    exact ⟨before, c, _, rfl, hlead, hspace, hcloses, .last isGap_nil hspelled htrail⟩
  | @more before text after rest item items hlead hspelled htrail hothers =>
    obtain ⟨c, more, rfl, hspace, hcloses⟩ := hstarts text item hspelled
    exact ⟨before, c, _, rfl, hlead, hspace, hcloses, .more isGap_nil hspelled htrail hothers⟩

/-- A list or an object is passed when its items are. -/
theorem openBracket_separated (bracket : Bracket) {α : Type} {Item : List Char → α → Prop}
    {body : List Char} {items : List α} (h : Separated Item body items)
    (hstarts : ∀ text item, Item text item → Starts text)
    (henters : ∀ text item, Item text item → text.length ≤ body.length → Enters bracket text)
    (brackets : List Bracket) (rest : List Char) :
    ∃ steps ≤ body.length, ∀ fuel,
      proceed (fuel + steps) (openBracket bracket brackets (body ++ bracket.close :: rest))
        = proceed fuel (leave brackets rest) := by
  obtain ⟨gap, c, trimmed, rfl, hgap, hspace, hcloses, htrimmed⟩ := h.trimmed hstarts
  have hlength : (c :: trimmed).length ≤ (gap ++ c :: trimmed).length := by
    rw [List.length_append]
    exact Nat.le_add_left _ _
  have hopen : openBracket bracket brackets ((gap ++ c :: trimmed) ++ bracket.close :: rest)
      = enter bracket brackets ((c :: trimmed) ++ bracket.close :: rest) := by
    rw [List.append_assoc, List.cons_append]
    exact openBracket_eq_enter (skipSpace_gap hgap hspace _) hcloses
  obtain ⟨steps, hsteps, hpasses⟩ := enter_separated htrimmed
    (fun text item hitem hle => henters text item hitem (Nat.le_trans hle hlength)) brackets rest
  refine ⟨steps, Nat.le_trans hsteps hlength, ?_⟩
  intro fuel
  rw [hopen, hpasses]

theorem passes_blank (bracket : Bracket) {gap : List Char} (h : IsGap gap) :
    Passes (bracket.around gap) := by
  have hne : bracket.around gap ≠ [] := by
    cases bracket <;> exact List.cons_ne_nil _ _
  apply passes_of_skipStep hne
  intro brackets rest _
  rw [skipStep_around, openBracket_close h]

theorem passes_separated (bracket : Bracket) {α : Type} {Item : List Char → α → Prop}
    {body : List Char} {items : List α} (h : Separated Item body items)
    (hstarts : ∀ text item, Item text item → Starts text)
    (henters : ∀ text item, Item text item → text.length ≤ body.length → Enters bracket text) :
    Passes (bracket.around body) := by
  intro brackets rest _
  obtain ⟨steps, hsteps, hpasses⟩ := openBracket_separated bracket h hstarts henters brackets rest
  refine ⟨steps, ?_, ?_⟩
  · rw [bracket.length_around]
    omega
  · intro fuel
    rw [← hpasses fuel, skipStep_around]

/-! ## Values -/

/-- Skipping passes over every value, whatever is nested in it. -/
theorem Spells.passes {text : List Char} {datum : Datum} (h : Spells text datum) :
    Passes text := by
  -- On the length, since members are values only behind their keys.
  induction hlength : text.length using Nat.strongRecOn generalizing text datum with
  | ind length ih =>
    have hitems (bracket : Bracket) {body item : List Char} {datum : Datum}
        (htext : text = bracket.around body) (hitem : Spells item datum)
        (hle : item.length ≤ body.length) : Passes item := by
      have hlonger := bracket.length_around body
      rw [← htext] at hlonger
      exact ih item.length (by omega) hitem rfl
    cases h with
    | null => exact passes_of_skipStep (by simp) fun _ _ _ => rfl
    | yes => exact passes_of_skipStep (by simp) fun _ _ _ => rfl
    | no => exact passes_of_skipStep (by simp) fun _ _ _ => rfl
    | numeral hnumeral =>
      have hne : text ≠ [] := by
        obtain ⟨c, rest, rfl, -⟩ := hnumeral.first
        exact List.cons_ne_nil _ _
      exact passes_of_skipStep hne fun brackets _ hrest => skipStep_numeral hnumeral hrest brackets
    | literal hliteral =>
      apply passes_of_skipStep (List.cons_ne_nil _ _)
      intro brackets rest _
      rw [List.cons_append, List.append_assoc]
      exact skipStep_literal hliteral brackets rest
    | noValues hblank => exact passes_blank .list hblank
    | noMembers hblank => exact passes_blank .object hblank
    | values hspelled =>
      refine passes_separated .list hspelled (fun _ _ => Spells.starts) ?_
      exact fun _ _ hvalue hle => (hitems .list rfl hvalue hle).enters
    | members hspelled =>
      refine passes_separated .object hspelled (fun _ _ => Member.starts) ?_
      rintro _ _ ⟨hkey, hbetween, hbefore, hvalue⟩ hle
      simp only [List.length_cons, List.length_append] at hle
      exact (hitems .object rfl hvalue (by omega)).enters_member hkey hbetween hbefore

/-- Skipping stops behind the value that a text spells. -/
theorem skipValue_of_spells {gap text rest : List Char} {datum : Datum} (hgap : IsGap gap)
    (h : Spells text datum) (hrest : Ends rest) :
    skipValue (gap ++ (text ++ rest)) = .ok rest := by
  obtain ⟨steps, hsteps, hpasses⟩ := h.passes [] rest hrest
  obtain ⟨fuel, hfuel⟩ : ∃ fuel, (gap ++ (text ++ rest)).length = fuel + steps := by
    refine ⟨(gap ++ (text ++ rest)).length - steps, ?_⟩
    simp only [List.length_append]
    omega
  calc skipValue (gap ++ (text ++ rest))
      = proceed (fuel + steps) (skipStep [] (text ++ rest)) := by
        rw [skipValue, skipFrom_succ, hfuel, skipStep_gap hgap]
    _ = proceed fuel (leave [] rest) := hpasses fuel
    _ = .ok rest := rfl

end FeatureDigest.Json
