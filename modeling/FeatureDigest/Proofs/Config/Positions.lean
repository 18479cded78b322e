import FeatureDigest.Proofs.Config.Members

/-!
# Configurations in lists

A list is read by the order of its values, as the object that gives the same values to the first
fields is read by its keys (`ofText_list_iff_object`).  A list of more values than fields is not
read.

Both readings draw the values into a draft one after the other.  The fields are different ones, so
the object never has two members of a field, and its keys only say what the order says already
(`drawAll?_eq_foldlM`).
-/

set_option autoImplicit false

namespace FeatureDigest

open Json

namespace Json

/-! ## Texts of lists and objects -/

/-- The text spells the item, with gaps around it. -/
inductive Spaced {α : Type} (Item : List Char → α → Prop) : List Char → α → Prop
  | around {before text after : List Char} {item : α} (lead : IsGap before)
      (spelled : Item text item) (trail : IsGap after) :
      Spaced Item (before ++ (text ++ after)) item

/-- Texts with commas between them. -/
def commas : List (List Char) → List Char
  | [] => []
  | [text] => text
  | text :: next :: texts => text ++ ',' :: commas (next :: texts)

theorem separated_commas {α : Type} {Item : List Char → α → Prop} {text : List Char}
    {texts : List (List Char)} {item : α} {items : List α} (h : Spaced Item text item)
    (hothers : List.Forall₂ (Spaced Item) texts items) :
    Separated Item (commas (text :: texts)) (item :: items) := by
  induction hothers generalizing text item with
  | nil =>
    obtain ⟨hlead, hspelled, htrail⟩ := h
    exact .last hlead hspelled htrail
  | cons hnext _ ih =>
    obtain ⟨hlead, hspelled, htrail⟩ := h
    rw [commas, List.append_assoc, List.append_assoc]
    exact .more hlead hspelled htrail (ih hnext)

/-- The text of the list of some values. -/
def listText (values : List (List Char)) : List Char := '[' :: (commas values ++ [']'])

theorem spells_listText {values : List (List Char)} {data : List Datum}
    (h : List.Forall₂ (Spaced Spells) values data) : Spells (listText values) (.list data) := by
  cases h with
  | nil => exact .noValues isGap_nil
  | cons hvalue hvalues => exact .values (separated_commas hvalue hvalues)

/-- The text of the object of some members. -/
def objectText (members : List (List Char)) : List Char :=
  '\x7b' :: (commas members ++ ['\x7d'])

theorem spells_objectText {texts : List (List Char)} {members : List (List Char × Datum)}
    (h : List.Forall₂ (Spaced (Member Spells)) texts members) :
    Spells (objectText texts) (.object members) := by
  cases h with
  | nil => exact .noMembers isGap_nil
  | cons hmember hmembers => exact .members (separated_commas hmember hmembers)

/-- The text of a member: its key, as it is, and its value. -/
def memberText (key : String) (value : List Char) : List Char :=
  '"' :: (key.toList ++ '"' :: ':' :: value)

theorem spaced_memberText {key : String} (hkey : IsLiteral key.toList) {value : List Char}
    {datum : Datum} (h : Spaced Spells value datum) :
    Spaced (Member Spells) (memberText key value) (key.toList, datum) := by
  obtain ⟨hlead, hspelled, htrail⟩ := h
  have hmember := Spaced.around isGap_nil (Member.pair hkey isGap_nil hlead hspelled) htrail
  simp only [List.nil_append, List.cons_append, List.append_assoc] at hmember
  exact hmember

end Json

namespace Config

/-! ## Values by order and by key -/

theorem Field.escaped_name (field : Field) :
    field.name.toList.flatMap escapeLiteral = field.name.toList := by
  cases field <;> rfl

theorem Field.isLiteral_name (field : Field) : IsLiteral field.name.toList :=
  field.escaped_name ▸ isLiteral_flatMap_escape field.name.toList

theorem Field.text?_name (field : Field) :
    (Datum.literal field.name.toList).text? = some field.name := by
  have htext := Value.text?_literal field.name
  rwa [field.escaped_name] at htext

/-- The members that give the values to the fields. -/
def keyed (fields : List Field) (data : List Datum) : List (List Char × Datum) :=
  List.zipWith (fun field datum => (field.name.toList, datum)) fields data

namespace Draft

theorem drawMember?_name {draft : Draft} {field : Field} (h : draft.has field = false)
    (datum : Datum) :
    draft.drawMember? (field.name.toList, datum) = draft.draw? field datum := by
  rw [drawMember?, field.text?_name, Option.bind_some]
  simp only [Field.ofName?_name, h, Bool.false_eq_true, if_false]

/-- Values are drawn by order as they are by key, into a draft that has none of the fields. -/
theorem drawAll?_eq_foldlM {draft : Draft} {fields : List Field} {data : List Datum}
    (hspelled : ∀ datum ∈ data, datum.Spelled) (hlength : data.length ≤ fields.length)
    (hnodup : fields.Nodup) (hfresh : ∀ field ∈ fields, draft.has field = false) :
    draft.drawAll? fields data = (keyed fields data).foldlM drawMember? draft := by
  induction data generalizing draft fields with
  | nil =>
    cases fields <;> rfl
  | cons datum data ih =>
    cases fields with
    | nil => exact absurd hlength (Nat.not_succ_le_zero _)
    | cons field fields =>
      obtain ⟨hdatum, hspelled⟩ := List.forall_mem_cons.1 hspelled
      obtain ⟨hfirst, hfresh⟩ := List.forall_mem_cons.1 hfresh
      obtain ⟨hnew, hnodup⟩ := List.nodup_cons.1 hnodup
      rw [keyed, List.zipWith_cons_cons, List.foldlM_cons, drawMember?_name hfirst, drawAll?]
      cases hdraw : draft.draw? field datum with
      | none => rfl
      | some next =>
        obtain ⟨config, -, rfl⟩ := (draw?_eq_some_iff hdatum).1 hdraw
        have hothers : ∀ other ∈ fields, (draft.adopt config field).has other = false :=
          fun other hother => has_adopt_of_not_mem config (hfresh other hother) hnew hother
        exact ih hspelled (Nat.le_of_succ_le_succ hlength) hnodup hothers

/-- More values than fields are not drawn. -/
theorem drawAll?_eq_none {draft : Draft} {fields : List Field} {data : List Datum}
    (h : fields.length < data.length) : draft.drawAll? fields data = none := by
  induction fields generalizing draft data with
  | nil =>
    cases data with
    | nil => exact absurd h (Nat.lt_irrefl 0)
    | cons datum data => rfl
  | cons field fields ih =>
    cases data with
    | nil => exact absurd h (Nat.not_lt_zero _)
    | cons datum data =>
      rw [drawAll?, Option.bind_eq_none_iff]
      exact fun next _ => ih (Nat.lt_of_succ_lt_succ h)

end Draft

/-- A list of values gives what the object gives that has them under the keys of the fields. -/
theorem ofDatum?_list {data : List Datum} (hspelled : ∀ datum ∈ data, datum.Spelled)
    (hlength : data.length ≤ Field.all.length) :
    ofDatum? (.list data) = ofDatum? (.object (keyed Field.all data)) := by
  have hnodup : Field.all.Nodup := by decide
  rw [ofDatum?, ofDatum?, Draft.ofDatum?, Draft.ofDatum?,
    Draft.drawAll?_eq_foldlM hspelled hlength hnodup fun field _ => Draft.has_blank field]

theorem ofDatum?_list_eq_none {data : List Datum} (h : Field.all.length < data.length) :
    ofDatum? (.list data) = none := by
  rw [ofDatum?, Draft.ofDatum?, Draft.drawAll?_eq_none h, Option.map_none]

/-! ## Texts -/

/-- The text of the object that gives values to the first fields. -/
def fieldsText (values : List (List Char)) : List Char :=
  objectText (List.zipWith (fun field value => memberText field.name value) Field.all values)

theorem spells_fieldsText {values : List (List Char)} {data : List Datum}
    (h : List.Forall₂ (Spaced Spells) values data) :
    Spells (fieldsText values) (.object (keyed Field.all data)) := by
  refine spells_objectText ?_
  generalize Field.all = fields
  induction h generalizing fields with
  | nil =>
    cases fields <;> exact .nil
  | cons hvalue _ ih =>
    cases fields with
    | nil => exact .nil
    | cons field fields => exact .cons (spaced_memberText field.isLiteral_name hvalue) (ih fields)

theorem exists_data {values : List (List Char)}
    (h : ∀ value ∈ values, ∃ datum, Spaced Spells value datum) :
    ∃ data, List.Forall₂ (Spaced Spells) values data := by
  induction values with
  | nil => exact ⟨[], .nil⟩
  | cons value values ih =>
    obtain ⟨⟨datum, hdatum⟩, hvalues⟩ := List.forall_mem_cons.1 h
    obtain ⟨data, hdata⟩ := ih hvalues
    exact ⟨datum :: data, .cons hdatum hdata⟩

/-- Whatever values a list has, as long as there are not more of them than fields, it is read as
the object that gives them to the fields in their order: to the same configuration, or not at all.
A list of more values is not read. -/
theorem ofText_list_iff_object {values : List (List Char)}
    (h : ∀ value ∈ values, ∃ datum, Spaced Spells value datum) {before after : List Char}
    (hbefore : IsGap before) (hafter : IsGap after) :
    (values.length ≤ 4 → ∀ config,
        ofText (String.ofList (before ++ (listText values ++ after))) = .ok config
          ↔ ofText (String.ofList (before ++ (fieldsText values ++ after))) = .ok config) ∧
      (4 < values.length → ∃ fault,
        ofText (String.ofList (before ++ (listText values ++ after))) = .error fault) := by
  obtain ⟨data, hdata⟩ := exists_data h
  have hlist := spells_listText hdata
  have hobject := spells_fieldsText hdata
  refine ⟨fun hlength config => ?_, fun hlength => ?_⟩
  · rw [hdata.length_eq] at hlength
    rw [ofText_eq_ok_iff hbefore hlist hafter, ofText_eq_ok_iff hbefore hobject hafter,
      ofDatum?_list (Datum.Spelled.values ⟨_, hlist⟩) hlength]
  · rw [hdata.length_eq] at hlength
    exact exists_ofText_fault hbefore hlist hafter (ofDatum?_list_eq_none hlength)

/-- A folder, and a list of one extension with an escape and a gap in front of it. -/
def pairTexts : List (List Char) := ["\"a\"".toList, " [\"\\u0062\"]".toList]

theorem spaced_pairTexts : ∀ value ∈ pairTexts, ∃ datum, Spaced Spells value datum := by
  have hfolder : IsLiteral ['a'] := isLiteral_flatMap_escape ['a']
  have hextension : IsLiteral "\\u0062".toList :=
    .unit (rfl : unit? '0' '0' '6' '2' = some 0x62) .nil
  have hlist : Spells "[\"\\u0062\"]".toList _ :=
    .values (.last isGap_nil (.literal hextension) isGap_nil)
  refine List.forall_mem_cons.2 ⟨⟨_, .around isGap_nil (Spells.literal hfolder) isGap_nil⟩, ?_⟩
  exact List.forall_mem_singleton.2 ⟨_, .around isGap_blank hlist isGap_nil⟩

theorem ofText_pairTexts :
    (∀ value ∈ pairTexts, ∃ datum, Spaced Spells value datum) ∧
      ofText (String.ofList ([] ++ (fieldsText pairTexts ++ [' '])))
        = .ok ⟨"a", ["b"], [], .text⟩ ∧
      ∃ fault, ofText (String.ofList ([] ++ (listText (List.replicate 5 ['0']) ++ [' '])))
        = .error fault := by
  have hread : ofText (String.ofList ([] ++ (listText pairTexts ++ [' '])))
      = .ok ⟨"a", ["b"], [], .text⟩ := by decide +kernel
  have hzeros : ∀ value ∈ List.replicate 5 ['0'], ∃ datum, Spaced Spells value datum := by
    intro value hvalue
    rw [(List.mem_replicate.1 hvalue).2]
    exact ⟨_, .around isGap_nil (Spells.numeral (isNumeral_toDigits 0)) isGap_nil⟩
  have hpair := ofText_list_iff_object spaced_pairTexts isGap_nil isGap_blank
  have hfive := ofText_list_iff_object hzeros isGap_nil isGap_blank
  exact ⟨spaced_pairTexts, (hpair.1 (by decide) _).1 hread, hfive.2 (by decide)⟩

end Config

end FeatureDigest
