import FeatureDigest.Config.Reader
import FeatureDigest.Proofs.Json.Meaning

/-!
# Readers and spelled values

What a reader does with a text that spells a value depends on the value only: it finds what it
wants there and stops where the value ends, or it stops at a fault, and what follows the value
makes no difference (`Answers`).
-/

set_option autoImplicit false

namespace FeatureDigest.Json

/-! ## Answers -/

/-- A reading finds the answer and leaves the rest, or stops at a fault when there is none. -/
inductive Answers {α : Type} (rest : List Char) :
    Except Fault (α × List Char) → Option α → Prop
  | found (value : α) : Answers rest (.ok (value, rest)) (some value)
  | fault (fault : Fault) : Answers rest (.error fault) none

namespace Answers

variable {α β : Type} {rest middle : List Char} {outcome : Except Fault (α × List Char)}
variable {answer : Option α}

theorem eq_ok {value : α} (h : Answers rest outcome (some value)) :
    outcome = .ok (value, rest) := by
  cases h
  rfl

theorem exists_fault (h : Answers rest outcome none) : ∃ fault, outcome = .error fault := by
  cases h with
  | fault fault => exact ⟨fault, rfl⟩

theorem of_exists_fault (h : ∃ fault, outcome = .error fault) : Answers rest outcome none := by
  obtain ⟨fault, rfl⟩ := h
  exact .fault fault

/-- A reading that goes on behind what it found. -/
theorem bind {next : α × List Char → Except Fault (β × List Char)} {others : α → Option β}
    (h : Answers middle outcome answer)
    (hnext : ∀ value, Answers rest (next (value, middle)) (others value)) :
    Answers rest (outcome >>= next) (answer.bind others) := by
  cases h with
  | found value => exact hnext value
  | fault fault => exact .fault fault

end Answers

/-! ## First characters -/

/-- The character that a value starts with and no value of another type, if there is one. -/
def Datum.opener? : Datum → Option Char
  | .null => some 'n'
  | .literal _ => some '"'
  | .list _ => some '['
  | .object _ => some '\x7b'
  | _ => none

/-- Only values of its type start with an opener. -/
theorem Spells.first {text : List Char} {datum : Datum} (h : Spells text datum) :
    ∃ c rest, text = c :: rest ∧ isSpace c = false ∧
      ∀ opener ∈ ['n', '"', '[', '\x7b'], c = opener → datum.opener? = some opener := by
  obtain ⟨c, rest, rfl, hspace, -⟩ := h.starts
  refine ⟨c, rest, rfl, hspace, ?_⟩
  cases h with
  | null => simp [Datum.opener?]
  | yes => simp
  | no => simp
  | literal _ => simp [Datum.opener?]
  | noValues _ => simp [Datum.opener?]
  | values _ => simp [Datum.opener?]
  | noMembers _ => simp [Datum.opener?]
  | members _ => simp [Datum.opener?]
  | numeral hnumeral =>
    obtain ⟨c', rest', heq, hfirst⟩ := hnumeral.first
    cases heq
    have hopeners : ∀ opener ∈ ['n', '"', '[', '\x7b'],
        ¬ (opener.isDigit = true ∨ opener = '-') := by simp
    rintro opener hmem rfl
    exact absurd hfirst (hopeners c hmem)

/-- Behind a gap stands the first character of a value, which is no opener of another type. -/
theorem Spells.skipSpace {text : List Char} {datum : Datum} (h : Spells text datum)
    {gap : List Char} (hgap : IsGap gap) (rest : List Char) :
    ∃ c more, Json.skipSpace (gap ++ (text ++ rest)) = c :: more ∧
      ∀ opener ∈ ['n', '"', '[', '\x7b'], datum.opener? ≠ some opener → c ≠ opener := by
  obtain ⟨c, more, rfl, hspace, hfirst⟩ := h.first
  refine ⟨c, more ++ rest, ?_, ?_⟩
  · rw [List.cons_append, skipSpace_gap hgap hspace]
  · exact fun opener hopener hdatum hc => hdatum (hfirst opener hopener hc)

/-! ## What follows an item -/

/-- What stands behind an item of a list or an object, up to its end: the other items. -/
inductive Followed {α : Type} (Item : List Char → α → Prop) : List Char → List α → Prop
  | last {after : List Char} (trail : IsGap after) : Followed Item after []
  | more {after before text tail : List Char} {item : α} {items : List α} (trail : IsGap after)
      (lead : IsGap before) (spelled : Item text item) (others : Followed Item tail items) :
      Followed Item (after ++ ',' :: (before ++ (text ++ tail))) (item :: items)

section Items

variable {α : Type} {Item : List Char → α → Prop}

/-- Separated items are one item and what follows it. -/
theorem Separated.followed {body : List Char} {items : List α}
    (h : Separated Item body items) :
    ∃ before text tail item others, body = before ++ (text ++ tail) ∧ items = item :: others ∧
      IsGap before ∧ Item text item ∧ Followed Item tail others := by
  induction h with
  | @last before text after item hlead hspelled htrail =>
    exact ⟨before, text, after, item, [], rfl, rfl, hlead, hspelled, .last htrail⟩
  | @more before text after rest item items hlead hspelled htrail _ ih =>
    obtain ⟨before', text', tail, item', others, rfl, rfl, hlead', hspelled', hothers⟩ := ih
    exact ⟨before, text, _, item, _, rfl, rfl, hlead, hspelled,
      .more htrail hlead' hspelled' hothers⟩

/-- There are not more items than characters. -/
theorem Followed.length_lt {tail : List Char} {items : List α} (h : Followed Item tail items)
    (rest : List Char) : items.length < (tail ++ rest).length + 1 := by
  induction h with
  | last => exact Nat.succ_pos _
  | more _ _ _ _ ih =>
    simp only [List.length_append, List.length_cons] at ih ⊢
    omega

/-- A numeral does not go on behind an item. -/
theorem Followed.ends {tail : List Char} {items : List α} (h : Followed Item tail items)
    {close : Char} (hclose : closes close = true) (rest : List Char) :
    Ends (tail ++ close :: rest) := by
  cases h with
  | last htrail => exact ends_gap htrail (ends_cons (continues_of_closes hclose) rest)
  | more htrail _ _ _ =>
    rw [List.append_assoc]
    exact ends_gap htrail (ends_cons rfl _)

end Items

/-! ## Texts -/

/-- A literal is read to its text, unless it has none. -/
theorem answers_readLiteral {α : Type} {spelling : List Char} (h : IsLiteral spelling)
    {middle rest : List Char} {next : List Char × List Char → Except Fault (α × List Char)}
    {others : String → Option α}
    (hnext : ∀ content, Answers rest (next (content, middle)) (others (String.ofList content))) :
    Answers rest (readLiteral (spelling ++ '"' :: middle) >>= next)
      ((Datum.literal spelling).text?.bind others) := by
  rcases readLiteral_cases h with ⟨content, hcontent⟩ | hunreadable
  · rw [readLiteral_of_denotes hcontent, Datum.text?_of_denotes hcontent]
    exact hnext content
  · obtain ⟨fault, hfault⟩ := hunreadable middle
    rw [hfault, Datum.text?_of_unreadable hunreadable]
    exact .fault fault

theorem answers_readText {gap text : List Char} {datum : Datum} (hgap : IsGap gap)
    (h : Spells text datum) (rest : List Char) :
    Answers rest (readText (gap ++ (text ++ rest))) datum.text? := by
  cases datum with
  | literal spelling =>
    cases h with
    | literal hliteral =>
      have hquote : isSpace '"' = false := rfl
      simp only [readText, List.cons_append, List.append_assoc, skipSpace_gap hgap hquote,
        List.nil_append]
      rw [← Option.bind_fun_some (Datum.literal spelling).text?]
      exact answers_readLiteral hliteral fun content => .found (String.ofList content)
  | _ =>
    obtain ⟨c, more, hskip, hfirst⟩ := h.skipSpace hgap rest
    have hquote := hfirst '"' (by decide) (by simp [Datum.opener?])
    exact .of_exists_fault (by simp [readText, hskip, hquote])

/-- No item of a list or an object starts with what could end it. -/
theorem Starts.exists_cons {text : List Char} (h : Starts text) :
    ∃ c rest, text = c :: rest ∧ ∀ close, closes close = true → c ≠ close := by
  obtain ⟨c, rest, rfl, -, hcloses⟩ := h
  refine ⟨c, rest, rfl, ?_⟩
  rintro close hclose rfl
  rw [hclose] at hcloses
  cases hcloses

theorem afterComma_starts {gap text : List Char} (hgap : IsGap gap) (h : Starts text)
    (rest : List Char) : afterComma (gap ++ (text ++ rest)) = .ok (text ++ rest) := by
  have hskip := h.skipSpace hgap rest
  obtain ⟨c, more, rfl, hne⟩ := h.exists_cons
  have hclose := hne ']' closes_list
  rw [afterComma, hskip]
  simp [hclose]

/-- The texts behind a text are read up to the end of the list. -/
theorem answers_readMoreTexts {tail : List Char} {values : List Datum}
    (h : Followed Spells tail values) {fuel : Nat} (hfuel : values.length < fuel)
    (rest : List Char) :
    Answers rest (readMoreTexts fuel (tail ++ ']' :: rest)) (values.mapM Datum.text?) := by
  induction h generalizing fuel with
  | last htrail =>
    obtain ⟨fuel, rfl⟩ : ∃ less, fuel = less + 1 := ⟨fuel - 1, by omega⟩
    have hclose : isSpace ']' = false := rfl
    simp only [readMoreTexts, skipSpace_gap htrail hclose]
    exact .found []
  | @more after before text tail value values htrail hlead hspelled _ ih =>
    rw [List.length_cons] at hfuel
    obtain ⟨fuel, rfl⟩ : ∃ less, fuel = less + 1 := ⟨fuel - 1, by omega⟩
    have hcomma : isSpace ',' = false := rfl
    have hfirst := answers_readText isGap_nil hspelled (tail ++ ']' :: rest)
    have hmore := ih (by omega : values.length < fuel)
    simp only [readMoreTexts, List.append_assoc, List.cons_append, skipSpace_gap htrail hcomma,
      afterComma_starts hlead hspelled.starts]
    rw [List.mapM_cons]
    exact hfirst.bind fun content => hmore.bind fun contents => .found (content :: contents)

/-- A list that is not empty is read from its first text on. -/
theorem readTexts_starts {gap before text : List Char} (hgap : IsGap gap)
    (hbefore : IsGap before) (h : Starts text) (rest : List Char) :
    readTexts (gap ++ '[' :: (before ++ (text ++ rest))) = (do
      let (content, rest) ← readText (text ++ rest)
      let (contents, rest) ← readMoreTexts (rest.length + 1) rest
      return (content :: contents, rest)) := by
  have hopen : isSpace '[' = false := rfl
  have hskip := h.skipSpace hbefore rest
  obtain ⟨c, more, rfl, hne⟩ := h.exists_cons
  have hclose := hne ']' closes_list
  rw [List.cons_append] at hskip ⊢
  simp only [readTexts, skipSpace_gap hgap hopen, hskip]
  simp [hclose]

/-- A list of texts is read, unless it has other values. -/
theorem answers_readTexts {gap text : List Char} {datum : Datum} (hgap : IsGap gap)
    (h : Spells text datum) (rest : List Char) :
    Answers rest (readTexts (gap ++ (text ++ rest))) (datum.items? Datum.text?) := by
  cases datum with
  | list values =>
    have hopen : isSpace '[' = false := rfl
    have hclose : isSpace ']' = false := rfl
    cases h with
    | noValues hblank =>
      simp only [readTexts, List.cons_append, List.append_assoc, skipSpace_gap hgap hopen,
        List.nil_append, skipSpace_gap hblank hclose]
      exact .found []
    | values hitems =>
      obtain ⟨before, text, tail, first, others, rfl, rfl, hlead, hspelled, hfollowed⟩ :=
        hitems.followed
      have hfirst := answers_readText isGap_nil hspelled (tail ++ ']' :: rest)
      have hmore := answers_readMoreTexts hfollowed (hfollowed.length_lt (']' :: rest)) rest
      simp only [List.cons_append, List.append_assoc, List.nil_append,
        readTexts_starts hgap hlead hspelled.starts]
      rw [Datum.items?, List.mapM_cons]
      exact hfirst.bind fun content => hmore.bind fun contents => .found (content :: contents)
  | _ =>
    obtain ⟨c, more, hskip, hfirst⟩ := h.skipSpace hgap rest
    have hopen := hfirst '[' (by decide) (by simp [Datum.opener?])
    exact .of_exists_fault (by simp [readTexts, hskip, hopen])

end FeatureDigest.Json
