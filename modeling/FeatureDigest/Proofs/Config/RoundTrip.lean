import FeatureDigest.Config.Reader
import FeatureDigest.Proofs.Json.Written

/-!
# Configurations read back

A configuration is read back from its text (`ofText_render`).  The fields of a
configuration are written one after the other, each is read into a draft that does not
have it yet (`readMember_write`), and the draft that has all of them gives the
configuration (`finish_adoptAll`).
-/

set_option autoImplicit false

namespace FeatureDigest

namespace Json

/-! ## Texts and lists of texts -/

theorem readText_write (level : Nat) (content : String) (rest : List Char) :
    readText (Value.write level (.text content) ++ rest) = .ok (content, rest) := by
  rw [write_text_append]
  simp (disch := decide) only [readText, skipSpace_of_not_isSpace,
    readLiteral_flatMap_escape, bind, Except.bind, pure, Except.pure, String.ofList_toList]

theorem afterComma_write (outer level : Nat) (content : String) (rest : List Char) :
    afterComma (Value.lineBreak outer ++ (Value.write level (.text content) ++ rest))
      = .ok (Value.write level (.text content) ++ rest) := by
  rw [write_text_append]
  simp (disch := decide) only [afterComma, skipSpace_lineBreak, skipSpace_of_not_isSpace]
  rfl

theorem readMoreTexts_write {level outer fuel : Nat} {values : List String}
    (hfuel : values.length < fuel) (rest : List Char) :
    readMoreTexts fuel (Value.writeElements level (values.map .text)
        ++ (Value.lineBreak outer ++ ']' :: rest)) = .ok (values, rest) := by
  induction values generalizing fuel with
  | nil =>
    obtain ⟨fuel, rfl⟩ : ∃ less, fuel = less + 1 := ⟨fuel - 1, by omega⟩
    simp (disch := decide) only [List.map_nil, Value.writeElements, List.nil_append,
      readMoreTexts, skipSpace_lineBreak, skipSpace_of_not_isSpace]
  | cons value values ih =>
    rw [List.length_cons] at hfuel
    obtain ⟨fuel, rfl⟩ : ∃ less, fuel = less + 1 := ⟨fuel - 1, by omega⟩
    have hless : values.length < fuel := by omega
    have hmore := ih hless
    simp (disch := decide) only [List.map_cons, Value.writeElements, List.cons_append,
      List.append_assoc, readMoreTexts, skipSpace_of_not_isSpace, afterComma_write,
      readText_write, hmore, bind, Except.bind, pure, Except.pure]

/-- A list that does not end at once is read from its first text on. -/
theorem readTexts_first {text body : List Char} (h : skipSpace text = '"' :: body) :
    readTexts ('[' :: text) = (do
      let (content, rest) ← readText ('"' :: body)
      let (contents, rest) ← readMoreTexts (rest.length + 1) rest
      return (content :: contents, rest)) := by
  simp (disch := decide) only [readTexts, skipSpace_of_not_isSpace, h]
  rfl

theorem readTexts_write (level : Nat) (values : List String) (rest : List Char) :
    readTexts (Value.write level (.texts values) ++ rest) = .ok (values, rest) := by
  cases values with
  | nil => rfl
  | cons value values =>
    let after := Value.writeElements (level + 1) (values.map .text)
      ++ (Value.lineBreak level ++ ']' :: rest)
    have hwritten : Value.write level (.texts (value :: values)) ++ rest
        = '[' :: (Value.lineBreak (level + 1)
          ++ (Value.write (level + 1) (.text value) ++ after)) := by
      simp [Value.texts, Value.write, after]
    have hskip : skipSpace (Value.lineBreak (level + 1)
        ++ (Value.write (level + 1) (.text value) ++ after))
          = '"' :: (value.toList.flatMap escapeLiteral ++ '"' :: after) := by
      rw [skipSpace_lineBreak, write_text_append, skipSpace_of_not_isSpace (by decide)]
    have hlength : values.length < after.length + 1 := by
      have hle := length_le_writeElements (level + 1) (values.map .text)
      simp only [after, List.length_append, List.length_map] at hle ⊢
      omega
    rw [hwritten, readTexts_first hskip, ← write_text_append (level + 1), readText_write]
    simp only [after, readMoreTexts_write hlength rest, bind, Except.bind, pure, Except.pure]

end Json

/-! ## Fields -/

theorem Format.read_write (level : Nat) (format : Format) (rest : List Char) :
    Format.read (Json.Value.write level (.text format.name) ++ rest) = .ok (format, rest) := by
  rw [Json.write_text_append]
  simp (disch := decide) only [Format.read, Json.skipSpace_of_not_isSpace,
    Json.readLiteral_flatMap_escape, bind, Except.bind, Format.ofLiteral,
    String.ofList_toList, Format.ofName?_name]

namespace Config

open Json

/-- What a configuration says about a field, as a JSON value. -/
def fieldValue (config : Config) : Field → Value
  | .root => .text config.root
  | .extensions => .texts config.extensions
  | .ignores => .texts config.ignores
  | .format => .text config.format.name

/-- The members that a configuration writes for some fields. -/
def members (config : Config) (fields : List Field) : List (String × Value) :=
  fields.map fun field => (field.name, config.fieldValue field)

theorem toValue_eq (config : Config) :
    config.toValue = .object (config.members Field.all) := rfl

namespace Draft

/-- A draft with a field of a configuration. -/
def adopt (draft : Draft) (config : Config) : Field → Draft
  | .root => { draft with root := some config.root }
  | .extensions => { draft with extensions := some config.extensions }
  | .ignores => { draft with ignores := some config.ignores }
  | .format => { draft with format := some config.format }

/-- A draft with some fields of a configuration. -/
def adoptAll (draft : Draft) (config : Config) (fields : List Field) : Draft :=
  fields.foldl (fun draft field => draft.adopt config field) draft

theorem has_adopt (draft : Draft) (config : Config) (field other : Field) :
    (draft.adopt config field).has other = (decide (field = other) || draft.has other) := by
  cases field <;> cases other <;> rfl

/-- What a draft does not have, it does not get from another field. -/
theorem has_adopt_of_not_mem {draft : Draft} {field other : Field} {fields : List Field}
    (config : Config) (hfresh : draft.has other = false) (hnew : field ∉ fields)
    (hother : other ∈ fields) : (draft.adopt config field).has other = false := by
  have hne : field ≠ other := by
    rintro rfl
    exact hnew hother
  rw [has_adopt, hfresh, decide_eq_false hne]
  rfl

theorem has_blank (field : Field) : blank.has field = false := by
  cases field <;> rfl

/-- The draft with all fields of a configuration gives the configuration. -/
theorem finish_adoptAll (config : Config) :
    (blank.adoptAll config Field.all).finish = config := rfl

theorem readField_write (draft : Draft) (config : Config) (field : Field) (level : Nat)
    (rest : List Char) :
    draft.readField field (' ' :: (Value.write level (config.fieldValue field) ++ rest))
      = .ok (draft.adopt config field, rest) := by
  have hspace (text : List Char) :
      draft.readField field (' ' :: text) = draft.readField field text := by
    cases field <;> rfl
  rw [hspace]
  cases field <;>
    simp only [fieldValue, readField, adopt, readText_write, readTexts_write,
      Format.read_write, bind, Except.bind, pure, Except.pure]

/-- A member is read into a draft that does not have its field yet. -/
theorem readMember_write {draft : Draft} {field : Field} (h : draft.has field = false)
    (config : Config) (level : Nat) (rest : List Char) :
    draft.readMember (field.name.toList.flatMap escapeLiteral
        ++ '"' :: ':' :: ' ' :: (Value.write level (config.fieldValue field) ++ rest))
      = .ok (draft.adopt config field, rest) := by
  simp (disch := decide) only [readMember, readLiteral_flatMap_escape,
    String.ofList_toList, Field.ofName?_name, h, readColon, skipSpace_of_not_isSpace,
    readField_write, bind, Except.bind, Bool.false_eq_true, if_false]

/-- The members of fields that a draft does not have yet are read up to the end of the
object. -/
theorem readMoreMembers_write {fuel : Nat} {draft : Draft} {fields : List Field}
    (config : Config) (level outer : Nat) (hfuel : fields.length < fuel)
    (hfresh : ∀ field ∈ fields, draft.has field = false) (hnodup : fields.Nodup)
    (rest : List Char) :
    readMoreMembers fuel draft (Value.writeMembers level (config.members fields)
        ++ (Value.lineBreak outer ++ '\x7d' :: rest))
      = .ok (draft.adoptAll config fields, rest) := by
  induction fields generalizing draft fuel with
  | nil =>
    obtain ⟨fuel, rfl⟩ : ∃ less, fuel = less + 1 := ⟨fuel - 1, by omega⟩
    simp (disch := decide) only [members, List.map_nil, Value.writeMembers, List.nil_append,
      readMoreMembers, skipSpace_lineBreak, skipSpace_of_not_isSpace]
    rfl
  | cons field fields ih =>
    rw [List.length_cons] at hfuel
    obtain ⟨fuel, rfl⟩ : ∃ less, fuel = less + 1 := ⟨fuel - 1, by omega⟩
    obtain ⟨hnew, hnodup⟩ := List.nodup_cons.1 hnodup
    have hfirst := hfresh field List.mem_cons_self
    have hothers : ∀ other ∈ fields, (draft.adopt config field).has other = false := by
      intro other hother
      exact has_adopt_of_not_mem config (hfresh other (List.mem_cons_of_mem field hother))
        hnew hother
    have hless : fields.length < fuel := by omega
    have hmore := ih hless hothers hnodup
    have hmembers : config.members (field :: fields)
        = (field.name, config.fieldValue field) :: config.members fields := rfl
    simp (disch := decide) only [hmembers, Value.writeMembers, List.cons_append,
      List.append_assoc, readMoreMembers, writeMember_append, skipSpace_lineBreak,
      skipSpace_of_not_isSpace, readMember_write hfirst, hmore, bind, Except.bind]
    rfl

theorem readObject_write {field : Field} {fields : List Field} (config : Config)
    (level outer : Nat) (hnodup : (field :: fields).Nodup) (rest : List Char) :
    readObject (Value.lineBreak level
        ++ (Value.writeMember level (field.name, config.fieldValue field)
          ++ (Value.writeMembers level (config.members fields)
            ++ (Value.lineBreak outer ++ '\x7d' :: rest))))
      = .ok (blank.adoptAll config (field :: fields), rest) := by
  obtain ⟨hnew, hnodup⟩ := List.nodup_cons.1 hnodup
  have hfresh : ∀ other ∈ fields, (blank.adopt config field).has other = false := by
    intro other hother
    exact has_adopt_of_not_mem config (has_blank other) hnew hother
  have hlength : fields.length < (Value.writeMembers level (config.members fields)
      ++ (Value.lineBreak outer ++ '\x7d' :: rest)).length + 1 := by
    have hle := length_le_writeMembers level (config.members fields)
    simp only [members, List.length_append, List.length_map] at hle ⊢
    omega
  have hmore := readMoreMembers_write config level outer hlength hfresh hnodup rest
  simp (disch := decide) only [readObject, skipSpace_lineBreak, writeMember_append,
    skipSpace_of_not_isSpace, readMember_write (has_blank field), hmore, bind, Except.bind]
  rfl

end Draft

/-! ## Whole texts -/

/-- A configuration is read back from its text. -/
theorem ofText_render (config : Config) : ofText config.render = .ok config := by
  have hread : Draft.read (Value.write 0 config.toValue)
      = .ok (Draft.blank.adoptAll config Field.all, []) := by
    have hobject := Draft.readObject_write config 1 0
      (show Field.all.Nodup by decide) []
    rw [toValue_eq, Field.all, members, List.map_cons, Value.write]
    simp only [List.append_assoc]
    exact hobject
  rw [ofText, render, Value.render, String.toList_ofList, ofChars, hread]
  exact congrArg Except.ok (Draft.finish_adoptAll config)

/-- Writing a configuration and reading it gives it back.  So reading a text, writing what
was read and reading that is the same as reading the text, however this spells its
configuration. -/
theorem ofText_render_roundTrip :
    (∀ config : Config, ofText config.render = .ok config) ∧
      ∀ text, (do ofText (← ofText text).render) = ofText text := by
  refine ⟨ofText_render, ?_⟩
  intro text
  cases hread : ofText text with
  | error fault => rfl
  | ok config =>
    have hback := ofText_render config
    simpa only [bind, Except.bind] using hback

end Config

end FeatureDigest
