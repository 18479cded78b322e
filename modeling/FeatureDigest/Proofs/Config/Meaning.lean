import FeatureDigest.Proofs.Json.Answering
import FeatureDigest.Proofs.Json.Skipping

/-!
# What JSON values mean as configurations

Reading a configuration goes through its text once, and notices the first fault.  What comes out
of a text that spells a JSON value depends on the value only: its members or elements are drawn
into a draft one after the other (`answers_read`), and the draft is finished
(`ofText_eq_ok_iff`).
-/

set_option autoImplicit false

namespace FeatureDigest

open Json

namespace Json

theorem readColon_gap {gap : List Char} (h : IsGap gap) (rest : List Char) :
    readColon (gap ++ ':' :: rest) = .ok rest := by
  have hcolon : isSpace ':' = false := rfl
  rw [readColon, skipSpace_gap h hcolon]
  rfl

/-- The value is `null`. -/
def Datum.isNull : Datum → Bool
  | .null => true
  | _ => false

theorem readNull_of_isNull {gap text : List Char} {datum : Datum} (hgap : IsGap gap)
    (h : Spells text datum) (hnull : datum.isNull = true) (rest : List Char) :
    readNull (gap ++ (text ++ rest)) = .ok rest := by
  have hlead : isSpace 'n' = false := rfl
  cases h with
  | null =>
    simp only [readNull, List.cons_append, skipSpace_gap hgap hlead]
    rfl
  | _ => cases hnull

theorem readNull_of_not_isNull {gap text : List Char} {datum : Datum} (hgap : IsGap gap)
    (h : Spells text datum) (hnull : datum.isNull = false) (rest : List Char) :
    ∃ fault, readNull (gap ++ (text ++ rest)) = .error fault := by
  have hopener : datum.opener? ≠ some 'n' := by
    cases datum with
    | null => cases hnull
    | _ => simp [Datum.opener?]
  obtain ⟨c, more, hskip, hfirst⟩ := h.skipSpace hgap rest
  have hlead := hfirst 'n' (by decide) hopener
  simp [readNull, hskip, hlead]

end Json

/-! ## Formats -/

namespace Format

/-- The format that a value names: by a text, or as the key of `null`. -/
def ofDatum? : Datum → Option Format
  | .literal spelling => (Datum.literal spelling).text?.bind ofName?
  | .object [(key, .null)] => (Datum.literal key).text?.bind ofName?
  | _ => none

theorem answers_ofLiteral (name rest : List Char) :
    Answers rest (ofLiteral name rest) (ofName? (String.ofList name)) := by
  unfold ofLiteral
  cases ofName? (String.ofList name) with
  | some format => exact .found format
  | none => exact .fault _

theorem ofDatum?_object (key : List Char) (value : Datum)
    (others : List (List Char × Datum)) :
    ofDatum? (.object ((key, value) :: others))
      = (Datum.literal key).text?.bind fun name => (ofName? name).bind fun format =>
        if value.isNull && others.isEmpty then some format else none := by
  cases value <;> cases others <;> simp [ofDatum?, Datum.isNull]

/-- Behind its name, a format in an object has `null` as its value, and no other member. -/
theorem answers_null {between before text tail : List Char} {value : Datum}
    {others : List (List Char × Datum)} (hbetween : IsGap between) (hbefore : IsGap before)
    (hvalue : Spells text value) (hothers : Followed (Member Spells) tail others)
    (format : Format) (rest : List Char) :
    Answers rest (do
        let rest ← readColon (between ++ ':' :: (before ++ (text ++ (tail ++ '\x7d' :: rest))))
        let rest ← readNull rest
        match skipSpace rest with
        | '\x7d' :: rest => return (format, rest)
        | [] => throw ⟨.endInObject, [], 0⟩
        | rest => throw ⟨.expectedValue, rest, 0⟩)
      (if value.isNull && others.isEmpty then some format else none) := by
  rw [readColon_gap hbetween]
  cases hisNull : value.isNull with
  | false =>
    obtain ⟨fault, hfault⟩ :=
      readNull_of_not_isNull hbefore hvalue hisNull (tail ++ '\x7d' :: rest)
    simp only [bind, Except.bind, hfault]
    exact .fault fault
  | true =>
    have hnull := readNull_of_isNull hbefore hvalue hisNull (tail ++ '\x7d' :: rest)
    have hclose : isSpace '\x7d' = false := rfl
    have hcomma : isSpace ',' = false := rfl
    cases hothers with
    | last htrail =>
      simp only [bind, Except.bind, hnull, skipSpace_gap htrail hclose]
      exact .found format
    | more htrail _ _ _ =>
      simp only [bind, Except.bind, hnull]
      simp only [List.append_assoc, List.cons_append, skipSpace_gap htrail hcomma]
      exact .fault _

/-- Only texts and objects are read as formats. -/
theorem exists_read_fault {gap text : List Char} {datum : Datum} (hgap : IsGap gap)
    (h : Spells text datum) (hliteral : datum.opener? ≠ some '"')
    (hobject : datum.opener? ≠ some '\x7b') (rest : List Char) :
    ∃ fault, read (gap ++ (text ++ rest)) = .error fault := by
  obtain ⟨c, more, hskip, hfirst⟩ := h.skipSpace hgap rest
  have hquote := hfirst '"' (by decide) hliteral
  have hopen := hfirst '\x7b' (by decide) hobject
  simp [read, hskip, hquote, hopen]

theorem answers_read {gap text : List Char} {datum : Datum} (hgap : IsGap gap)
    (h : Spells text datum) (rest : List Char) :
    Answers rest (read (gap ++ (text ++ rest))) (ofDatum? datum) := by
  have hquote : isSpace '"' = false := rfl
  have hopen : isSpace '\x7b' = false := rfl
  cases datum with
  | literal spelling =>
    cases h with
    | literal hliteral =>
      simp only [read, List.cons_append, List.append_assoc, skipSpace_gap hgap hquote,
        List.nil_append]
      exact answers_readLiteral hliteral fun name => answers_ofLiteral name rest
  | object members =>
    cases h with
    | noMembers hblank =>
      have hclose : isSpace '\x7d' = false := rfl
      simp only [read, List.cons_append, List.append_assoc, skipSpace_gap hgap hopen,
        List.nil_append, skipSpace_gap hblank hclose]
      exact .fault _
    | members hitems =>
      obtain ⟨before, text, tail, first, others, rfl, rfl, hlead, hspelled, hfollowed⟩ :=
        hitems.followed
      cases hspelled with
      | pair hname hmiddle hbefore hvalue =>
        simp only [read, List.cons_append, List.append_assoc, skipSpace_gap hgap hopen,
          List.nil_append, skipSpace_gap hlead hquote]
        rw [ofDatum?_object]
        refine answers_readLiteral hname fun name => ?_
        exact (answers_ofLiteral name _).bind fun format =>
          answers_null hmiddle hbefore hvalue hfollowed format rest
  | _ =>
    exact .of_exists_fault (exists_read_fault hgap h (by simp [Datum.opener?])
      (by simp [Datum.opener?]) rest)

end Format

namespace Config

/-! ## Members -/

namespace Draft

/-- The draft with the value of a field, if the value is of its type. -/
def draw? (draft : Draft) (field : Field) (value : Datum) : Option Draft :=
  match field with
  | .root => do
    let root ← value.text?
    return { draft with root := some root }
  | .extensions => do
    let extensions ← value.items? Datum.text?
    return { draft with extensions := some extensions }
  | .ignores => do
    let ignores ← value.items? Datum.text?
    return { draft with ignores := some ignores }
  | .format => do
    let format ← Format.ofDatum? value
    return { draft with format := some format }

theorem answers_readField (draft : Draft) (field : Field) {gap text : List Char}
    {datum : Datum} (hgap : IsGap gap) (h : Spells text datum) (rest : List Char) :
    Answers rest (draft.readField field (gap ++ (text ++ rest))) (draft.draw? field datum) := by
  cases field with
  | root => exact (answers_readText hgap h rest).bind fun _ => .found _
  | extensions => exact (answers_readTexts hgap h rest).bind fun _ => .found _
  | ignores => exact (answers_readTexts hgap h rest).bind fun _ => .found _
  | format => exact (Format.answers_read hgap h rest).bind fun _ => .found _

/-- The draft with a member of an object.  Keys that name no field make no difference. -/
def drawMember? (draft : Draft) (member : List Char × Datum) : Option Draft :=
  (Datum.literal member.1).text?.bind fun key =>
    match Field.ofName? key with
    | some field => if draft.has field then none else draft.draw? field member.2
    | none => some draft

theorem answers_readMember (draft : Draft) {key between before text : List Char}
    {value : Datum} (hkey : IsLiteral key) (hbetween : IsGap between) (hbefore : IsGap before)
    (hvalue : Spells text value) {rest : List Char} (hrest : Ends rest) :
    Answers rest
      (draft.readMember (key ++ '"' :: (between ++ ':' :: (before ++ (text ++ rest)))))
      (draft.drawMember? (key, value)) := by
  refine answers_readLiteral hkey fun content => ?_
  cases hfield : Field.ofName? (String.ofList content) with
  | some field =>
    cases hhas : draft.has field with
    | true =>
      simp only [hfield, hhas, if_true]
      exact .fault _
    | false =>
      simp only [hfield, hhas, Bool.false_eq_true, if_false, readColon_gap hbetween, bind,
        Except.bind]
      exact draft.answers_readField field hbefore hvalue rest
  | none =>
    simp only [hfield, readColon_gap hbetween, skipValue_of_spells hbefore hvalue hrest, bind,
      Except.bind]
    exact .found draft

/-- The members behind a member are read up to the end of the object. -/
theorem answers_readMoreMembers {tail : List Char} {members : List (List Char × Datum)}
    (h : Followed (Member Spells) tail members) {fuel : Nat} (hfuel : members.length < fuel)
    (draft : Draft) (rest : List Char) :
    Answers rest (readMoreMembers fuel draft (tail ++ '\x7d' :: rest))
      (members.foldlM drawMember? draft) := by
  induction h generalizing fuel draft with
  | last htrail =>
    obtain ⟨fuel, rfl⟩ : ∃ less, fuel = less + 1 := ⟨fuel - 1, by omega⟩
    have hclose : isSpace '\x7d' = false := rfl
    simp only [readMoreMembers, skipSpace_gap htrail hclose]
    exact .found draft
  | @more after before text tail member members htrail hlead hspelled hothers ih =>
    rw [List.length_cons] at hfuel
    obtain ⟨fuel, rfl⟩ : ∃ less, fuel = less + 1 := ⟨fuel - 1, by omega⟩
    have hless : members.length < fuel := by omega
    have hcomma : isSpace ',' = false := rfl
    have hquote : isSpace '"' = false := rfl
    have hends := hothers.ends closes_object rest
    cases hspelled with
    | pair hkey hbetween hbefore hvalue =>
      simp only [readMoreMembers, List.append_assoc, List.cons_append,
        skipSpace_gap htrail hcomma, skipSpace_gap hlead hquote]
      rw [List.foldlM_cons]
      exact (draft.answers_readMember hkey hbetween hbefore hvalue hends).bind
        fun draft => ih hless draft

theorem answers_readObject {body : List Char} {members : List (List Char × Datum)}
    (h : Separated (Member Spells) body members) (rest : List Char) :
    Answers rest (readObject (body ++ '\x7d' :: rest)) (members.foldlM drawMember? blank) := by
  obtain ⟨before, text, tail, first, others, rfl, rfl, hlead, hspelled, hfollowed⟩ :=
    h.followed
  have hquote : isSpace '"' = false := rfl
  have hends := hfollowed.ends closes_object rest
  have hfuel := hfollowed.length_lt ('\x7d' :: rest)
  cases hspelled with
  | pair hkey hbetween hbefore hvalue =>
    simp only [readObject, List.append_assoc, List.cons_append, skipSpace_gap hlead hquote]
    rw [List.foldlM_cons]
    exact (blank.answers_readMember hkey hbetween hbefore hvalue hends).bind
      fun draft => answers_readMoreMembers hfollowed hfuel draft rest

/-! ## Elements -/

/-- The draft with the values of the fields, one after the other.  There may be fewer values
than fields, but not more. -/
def drawAll? : Draft → List Field → List Datum → Option Draft
  | draft, _, [] => some draft
  | _, [], _ :: _ => none
  | draft, field :: fields, value :: values =>
    (draft.draw? field value).bind fun draft => draft.drawAll? fields values

theorem answers_readMoreFields {tail : List Char} {values : List Datum}
    (h : Followed Spells tail values) (fields : List Field) (draft : Draft)
    (rest : List Char) :
    Answers rest (readMoreFields fields draft (tail ++ ']' :: rest))
      (draft.drawAll? fields values) := by
  induction h generalizing fields draft with
  | last htrail =>
    have hclose : isSpace ']' = false := rfl
    cases fields with
    | nil =>
      simp only [readMoreFields, readListEnd, skipSpace_gap htrail hclose]
      exact .found draft
    | cons field fields =>
      simp only [readMoreFields, skipSpace_gap htrail hclose]
      exact .found draft
  | more htrail hlead hspelled _ ih =>
    have hcomma : isSpace ',' = false := rfl
    cases fields with
    | nil =>
      simp only [readMoreFields, readListEnd, List.append_assoc, List.cons_append,
        skipSpace_gap htrail hcomma]
      split <;> exact .fault _
    | cons field fields =>
      simp only [readMoreFields, List.append_assoc, List.cons_append,
        skipSpace_gap htrail hcomma, afterComma_starts hlead hspelled.starts]
      exact (draft.answers_readField field isGap_nil hspelled _).bind
        fun draft => ih fields draft

/-- A list that is not empty is read from its first value on. -/
theorem readList_starts {before text : List Char} (hbefore : IsGap before) (h : Starts text)
    (rest : List Char) :
    readList (before ++ (text ++ rest)) = (do
      let (draft, rest) ← blank.readField .root (text ++ rest)
      readMoreFields [.extensions, .ignores, .format] draft rest) := by
  have hskip := h.skipSpace hbefore rest
  obtain ⟨c, more, rfl, hne⟩ := h.exists_cons
  have hclose := hne ']' closes_list
  rw [List.cons_append] at hskip ⊢
  rw [readList, hskip]
  simp [hclose]

theorem answers_readList {body : List Char} {values : List Datum}
    (h : Separated Spells body values) (rest : List Char) :
    Answers rest (readList (body ++ ']' :: rest)) (blank.drawAll? Field.all values) := by
  obtain ⟨before, text, tail, first, others, rfl, rfl, hlead, hspelled, hfollowed⟩ :=
    h.followed
  simp only [List.append_assoc, readList_starts hlead hspelled.starts]
  exact (blank.answers_readField .root isGap_nil hspelled _).bind
    fun draft => answers_readMoreFields hfollowed _ draft rest

/-! ## Whole texts -/

/-- The draft that a value stands for: an object by its keys, a list by its order. -/
def ofDatum? : Datum → Option Draft
  | .object members => members.foldlM drawMember? blank
  | .list values => blank.drawAll? Field.all values
  | _ => none

/-- Only objects and lists are read as configurations. -/
theorem exists_read_fault {gap text : List Char} {datum : Datum} (hgap : IsGap gap)
    (h : Spells text datum) (hobject : datum.opener? ≠ some '\x7b')
    (hlist : datum.opener? ≠ some '[') (rest : List Char) :
    ∃ fault, read (gap ++ (text ++ rest)) = .error fault := by
  obtain ⟨c, more, hskip, hfirst⟩ := h.skipSpace hgap rest
  have hopen := hfirst '\x7b' (by decide) hobject
  have hbracket := hfirst '[' (by decide) hlist
  simp [read, hskip, hopen, hbracket]

theorem answers_read {gap text : List Char} {datum : Datum} (hgap : IsGap gap)
    (h : Spells text datum) (rest : List Char) :
    Answers rest (read (gap ++ (text ++ rest))) (ofDatum? datum) := by
  cases datum with
  | object members =>
    have hopen : isSpace '\x7b' = false := rfl
    cases h with
    | noMembers hblank =>
      have hclose : isSpace '\x7d' = false := rfl
      simp only [read, readObject, List.cons_append, List.append_assoc,
        skipSpace_gap hgap hopen, List.nil_append, skipSpace_gap hblank hclose]
      exact .found blank
    | members hitems =>
      simp only [read, List.cons_append, List.append_assoc, skipSpace_gap hgap hopen,
        List.nil_append]
      exact answers_readObject hitems rest
  | list values =>
    have hopen : isSpace '[' = false := rfl
    cases h with
    | noValues hblank =>
      have hclose : isSpace ']' = false := rfl
      simp only [read, readList, List.cons_append, List.append_assoc,
        skipSpace_gap hgap hopen, List.nil_append, skipSpace_gap hblank hclose]
      exact .found blank
    | values hitems =>
      simp only [read, List.cons_append, List.append_assoc, skipSpace_gap hgap hopen,
        List.nil_append]
      exact answers_readList hitems rest
  | _ =>
    exact .of_exists_fault (exists_read_fault hgap h (by simp [Datum.opener?])
      (by simp [Datum.opener?]) rest)

end Draft

/-- The configuration that a value stands for. -/
def ofDatum? (datum : Datum) : Option Config := (Draft.ofDatum? datum).map Draft.finish

section Spelled

variable {before text after : List Char} {datum : Datum}

/-- A text that spells a value is read as the configuration that the value stands for. -/
theorem ofText_eq_ok_iff (hbefore : IsGap before) (h : Spells text datum)
    (hafter : IsGap after) {config : Config} :
    ofText (String.ofList (before ++ (text ++ after))) = .ok config
      ↔ ofDatum? datum = some config := by
  have hread := Draft.answers_read hbefore h after
  have hend : skipSpace after = [] := skipSpace_isGap hafter
  rw [ofText, String.toList_ofList, ofChars, ofDatum?]
  cases hdraft : Draft.ofDatum? datum with
  | none =>
    rw [hdraft] at hread
    obtain ⟨fault, hfault⟩ := hread.exists_fault
    simp [hfault, bind, Except.bind]
  | some draft =>
    rw [hdraft] at hread
    simp [hread.eq_ok, hend, bind, Except.bind, pure, Except.pure]

theorem exists_ofText_fault (hbefore : IsGap before) (h : Spells text datum)
    (hafter : IsGap after) (hnone : ofDatum? datum = none) :
    ∃ fault, ofText (String.ofList (before ++ (text ++ after))) = .error fault := by
  cases hread : ofText (String.ofList (before ++ (text ++ after))) with
  | error fault => exact ⟨fault, rfl⟩
  | ok config =>
    rw [ofText_eq_ok_iff hbefore h hafter, hnone] at hread
    cases hread

end Spelled

end Config

end FeatureDigest
