import Mathlib.Data.List.Forall2
import FeatureDigest.Proofs.Config.Meaning
import FeatureDigest.Proofs.Config.RoundTrip

/-!
# Configurations in objects

An object is read by its keys, and neither the order of its members nor their spelling matters
(`ofText_object`).  It gives a configuration when every key denotes a text, no field has two
members and the value of each field is of its type (`Proper`).  Then the configuration has the
given values, and standard ones for the fields that have no member (`Gives`).

What a draft becomes is told member by member: a member of a field makes the draft adopt the field
of a configuration that the value fits, and a member of no field leaves it as it is
(`drawMember?_eq_some_iff`).
-/

set_option autoImplicit false

namespace FeatureDigest

open Json

/-! ## Typed values -/

namespace Json

/-- The value is a text. -/
inductive Datum.IsText : Datum → String → Prop
  | literal {spelling : List Char} {content : String}
      (denotes : Denotes spelling content.toList) : IsText (.literal spelling) content

/-- The value is a list of texts. -/
inductive Datum.AreTexts : Datum → List String → Prop
  | list {values : List Datum} {contents : List String}
      (texts : List.Forall₂ IsText values contents) : AreTexts (.list values) contents

/-- The value names a format: it is the name, or an object that gives `null` to the name. -/
inductive Datum.IsFormat : Datum → Format → Prop
  | literal {spelling : List Char} {format : Format}
      (denotes : Denotes spelling format.name.toList) : IsFormat (.literal spelling) format
  | object {key : List Char} {format : Format} (denotes : Denotes key format.name.toList) :
      IsFormat (.object [(key, .null)]) format

/-- Some text spells the value. -/
def Datum.Spelled (datum : Datum) : Prop := ∃ text, Spells text datum

theorem Separated.forall_mem {α : Type} {Item : List Char → α → Prop} {P : α → Prop}
    {body : List Char} {items : List α} (h : Separated Item body items)
    (hP : ∀ text item, Item text item → P item) : ∀ item ∈ items, P item := by
  induction h with
  | last _ hspelled _ =>
    intro item hitem
    rw [List.mem_singleton.1 hitem]
    exact hP _ _ hspelled
  | more _ hspelled _ _ ih => exact List.forall_mem_cons.2 ⟨hP _ _ hspelled, ih⟩

namespace Datum.Spelled

theorem literal {spelling : List Char} (h : Spelled (.literal spelling)) :
    IsLiteral spelling := by
  obtain ⟨_, hspells⟩ := h
  cases hspells with
  | literal hliteral => exact hliteral

theorem values {values : List Datum} (h : Spelled (.list values)) :
    ∀ value ∈ values, Spelled value := by
  obtain ⟨_, hspells⟩ := h
  cases hspells with
  | noValues _ => exact List.forall_mem_nil _
  | values hitems => exact hitems.forall_mem fun text _ hvalue => ⟨text, hvalue⟩

theorem members {members : List (List Char × Datum)} (h : Spelled (.object members)) :
    ∀ member ∈ members, IsLiteral member.1 ∧ Spelled member.2 := by
  obtain ⟨_, hspells⟩ := h
  cases hspells with
  | noMembers _ => exact List.forall_mem_nil _
  | members hitems =>
    refine hitems.forall_mem ?_
    rintro _ _ ⟨hkey, _, _, hvalue⟩
    exact ⟨hkey, _, hvalue⟩

end Datum.Spelled

theorem Datum.text?_eq_some_iff_isText {value : Datum} (h : value.Spelled) {content : String} :
    value.text? = some content ↔ value.IsText content := by
  cases value with
  | literal spelling =>
    rw [Datum.text?_eq_some_iff h.literal]
    exact ⟨.literal, fun ⟨hdenotes⟩ => hdenotes⟩
  | _ => exact ⟨nofun, nofun⟩

theorem Datum.items?_eq_some_iff_areTexts {value : Datum} (h : value.Spelled)
    {contents : List String} :
    value.items? Datum.text? = some contents ↔ value.AreTexts contents := by
  cases value with
  | list values =>
    have hvalues := h.values
    have hiff : values.mapM Datum.text? = some contents
        ↔ List.Forall₂ Datum.IsText values contents := by
      clear h
      induction values generalizing contents with
      | nil => cases contents <;> simp
      | cons value values ih =>
        obtain ⟨hvalue, hvalues⟩ := List.forall_mem_cons.1 hvalues
        cases contents with
        | nil => simp [Option.bind_eq_some_iff]
        | cons content contents =>
          simp [Option.bind_eq_some_iff, text?_eq_some_iff_isText hvalue, ih hvalues]
    exact hiff.trans ⟨.list, fun ⟨htexts⟩ => htexts⟩
  | _ => exact ⟨nofun, nofun⟩

end Json

theorem Format.ofName?_eq_some_iff {name : String} {format : Format} :
    ofName? name = some format ↔ name = format.name := by
  constructor
  · intro h
    simp only [ofName?] at h
    split at h
    · cases h
      assumption
    · split at h
      · cases h
        assumption
      · cases h
  · rintro rfl
    exact ofName?_name format

theorem Format.denotes_iff {spelling : List Char} (h : IsLiteral spelling) {format : Format} :
    (Datum.literal spelling).text?.bind ofName? = some format
      ↔ Denotes spelling format.name.toList := by
  simp [Option.bind_eq_some_iff, ofName?_eq_some_iff, Datum.text?_eq_some_iff h]

theorem Format.ofDatum?_eq_some_iff {value : Datum} (h : value.Spelled) {format : Format} :
    ofDatum? value = some format ↔ value.IsFormat format := by
  cases value with
  | literal spelling =>
    exact (denotes_iff h.literal).trans ⟨.literal, fun | .literal hdenotes => hdenotes⟩
  | object members =>
    rcases members with _ | ⟨⟨key, value⟩, _ | ⟨other, others⟩⟩
    · exact ⟨nofun, nofun⟩
    · have hkey : IsLiteral key := (h.members (key, value) List.mem_cons_self).1
      cases value with
      | null => exact (denotes_iff hkey).trans ⟨.object, fun | .object hdenotes => hdenotes⟩
      | _ => exact ⟨nofun, nofun⟩
    · cases value <;> exact ⟨nofun, nofun⟩
  | _ => exact ⟨nofun, nofun⟩

namespace Config

/-! ## Fields -/

/-- The configurations have the same value of a field. -/
def Agrees (config other : Config) : Field → Prop
  | .root => config.root = other.root
  | .extensions => config.extensions = other.extensions
  | .ignores => config.ignores = other.ignores
  | .format => config.format = other.format

/-- A value is the configuration's value of a field. -/
def Fits (config : Config) (value : Datum) : Field → Prop
  | .root => value.IsText config.root
  | .extensions => value.AreTexts config.extensions
  | .ignores => value.AreTexts config.ignores
  | .format => value.IsFormat config.format

/-- The configuration with the value that another one has of a field. -/
def put (config other : Config) : Field → Config
  | .root => { config with root := other.root }
  | .extensions => { config with extensions := other.extensions }
  | .ignores => { config with ignores := other.ignores }
  | .format => { config with format := other.format }

theorem eq_of_agrees {config other : Config} (h : ∀ field, config.Agrees other field) :
    config = other := by
  have hroot := h .root
  have hextensions := h .extensions
  have hignores := h .ignores
  have hformat := h .format
  cases config
  cases other
  cases hroot
  cases hextensions
  cases hignores
  cases hformat
  rfl

theorem Agrees.refl (config : Config) (field : Field) : config.Agrees config field := by
  cases field <;> rfl

theorem Agrees.trans {first second third : Config} {field : Field}
    (h : first.Agrees second field) (hnext : second.Agrees third field) :
    first.Agrees third field := by
  cases field <;> exact Eq.trans h hnext

theorem Agrees.fits_iff {config other : Config} {field : Field}
    (h : config.Agrees other field) {value : Datum} :
    config.Fits value field ↔ other.Fits value field := by
  cases field <;> rw [Agrees] at h <;> rw [Fits, Fits, h]

theorem agrees_put (config other : Config) (field : Field) :
    (config.put other field).Agrees other field := by
  cases field <;> rfl

theorem agrees_put_of_ne (config other : Config) {field changed : Field}
    (h : field ≠ changed) : (config.put other changed).Agrees config field := by
  cases field <;> cases changed <;> first | rfl | exact absurd rfl h

/-- The member's key is the key of a field. -/
def Names (member : List Char × Datum) (field : Field) : Prop :=
  Denotes member.1 field.name.toList

theorem Field.ofName?_eq_some_iff {name : String} {field : Field} :
    ofName? name = some field ↔ name = field.name := by
  constructor
  · intro h
    have hfound := List.find?_some h
    exact (beq_iff_eq.1 hfound).symm
  · rintro rfl
    exact ofName?_name field

theorem Names.unique {member : List Char × Datum} {field other : Field}
    (h : Names member field) (hother : Names member other) : field = other := by
  have hname : field.name = other.name := String.toList_inj.1 (Denotes.unique h hother)
  have hfound := Field.ofName?_name field
  rw [hname, Field.ofName?_name] at hfound
  exact (Option.some.inj hfound).symm

/-! ## Objects that give configurations -/

/-- Every key denotes a text, no field has two members, and the values of fields are of their
types. -/
structure Proper (members : List (List Char × Datum)) : Prop where
  keys : ∀ member ∈ members, ∃ content, Denotes member.1 content
  once : members.Pairwise fun first second => ∀ field, Names first field → ¬ Names second field
  typed : ∀ member ∈ members, ∀ field, Names member field → ∃ config : Config,
    config.Fits member.2 field

/-- The configuration has the given values, and standard ones for the other fields. -/
structure Gives (members : List (List Char × Datum)) (config : Config) : Prop where
  given : ∀ member ∈ members, ∀ field, Names member field → config.Fits member.2 field
  absent : ∀ field, (∀ member ∈ members, ¬ Names member field) → config.Agrees standard field

theorem proper_nil : Proper [] :=
  ⟨List.forall_mem_nil _, .nil, List.forall_mem_nil _⟩

theorem proper_cons_iff {member : List Char × Datum} {members : List (List Char × Datum)} :
    Proper (member :: members) ↔
      (∃ content, Denotes member.1 content) ∧
        (∀ field, Names member field → (∃ config : Config, config.Fits member.2 field) ∧
          ∀ other ∈ members, ¬ Names other field) ∧
        Proper members := by
  constructor
  · rintro ⟨hkeys, honce, htyped⟩
    obtain ⟨hkey, hkeys⟩ := List.forall_mem_cons.1 hkeys
    obtain ⟨hnew, honce⟩ := List.pairwise_cons.1 honce
    obtain ⟨hvalue, htyped⟩ := List.forall_mem_cons.1 htyped
    exact ⟨hkey, fun field hfield => ⟨hvalue field hfield,
      fun other hother => hnew other hother field hfield⟩, hkeys, honce, htyped⟩
  · rintro ⟨hkey, hnamed, hkeys, honce, htyped⟩
    exact ⟨List.forall_mem_cons.2 ⟨hkey, hkeys⟩,
      List.pairwise_cons.2 ⟨fun other hother field hfield => (hnamed field hfield).2 other hother,
        honce⟩,
      List.forall_mem_cons.2 ⟨fun field hfield => (hnamed field hfield).1, htyped⟩⟩

/-- Proper members give some configuration. -/
theorem Proper.exists_gives {members : List (List Char × Datum)} (h : Proper members) :
    ∃ config, Gives members config := by
  induction members with
  | nil => exact ⟨standard, List.forall_mem_nil _, fun field _ => .refl standard field⟩
  | cons member members ih =>
    obtain ⟨-, hvalue, hproper⟩ := proper_cons_iff.1 h
    obtain ⟨config, hgives⟩ := ih hproper
    by_cases hnamed : ∃ field, Names member field
    · obtain ⟨field, hfield⟩ := hnamed
      obtain ⟨⟨other, hfits⟩, hnew⟩ := hvalue field hfield
      refine ⟨config.put other field, List.forall_mem_cons.2 ⟨?_, ?_⟩, ?_⟩
      · intro found hfound
        obtain rfl := hfield.unique hfound
        exact (agrees_put config other field).fits_iff.2 hfits
      · intro second hsecond found hfound
        have hne : found ≠ field := by
          rintro rfl
          exact hnew second hsecond hfound
        exact (agrees_put_of_ne config other hne).fits_iff.2
          (hgives.given second hsecond found hfound)
      · intro found habsent
        obtain ⟨hmember, hmembers⟩ := List.forall_mem_cons.1 habsent
        have hne : found ≠ field := by
          rintro rfl
          exact hmember hfield
        exact (agrees_put_of_ne config other hne).trans (hgives.absent found hmembers)
    · refine ⟨config, List.forall_mem_cons.2 ⟨?_, hgives.given⟩, ?_⟩
      · intro field hfield
        exact absurd ⟨field, hfield⟩ hnamed
      · intro field habsent
        exact hgives.absent field (List.forall_mem_cons.1 habsent).2

/-! ## Members drawn -/

namespace Draft

/-- A value that is found is the value of some configuration, and what is drawn with it is drawn
with the configuration. -/
theorem bind_eq_some_iff_config {α : Type} {found? : Option α} {draw : α → Draft}
    {get : Config → α} (hget : Function.Surjective get) {next : Draft} :
    (found?.bind fun found => some (draw found)) = some next
      ↔ ∃ config, found? = some (get config) ∧ next = draw (get config) := by
  rw [Option.bind_eq_some_iff]
  constructor
  · rintro ⟨found, hfound, hnext⟩
    obtain ⟨config, rfl⟩ := hget found
    exact ⟨config, hfound, (Option.some.inj hnext).symm⟩
  · rintro ⟨config, hfound, rfl⟩
    exact ⟨get config, hfound, rfl⟩

/-- The value of a field is drawn as the field of a configuration that it fits. -/
theorem draw?_eq_some_iff {draft next : Draft} {field : Field} {value : Datum}
    (h : value.Spelled) :
    draft.draw? field value = some next
      ↔ ∃ config : Config, config.Fits value field ∧ next = draft.adopt config field := by
  cases field with
  | root =>
    simp only [Fits, ← Datum.text?_eq_some_iff_isText h]
    exact bind_eq_some_iff_config fun root => ⟨{ standard with root := root }, rfl⟩
  | extensions =>
    simp only [Fits, ← Datum.items?_eq_some_iff_areTexts h]
    exact bind_eq_some_iff_config fun texts => ⟨{ standard with extensions := texts }, rfl⟩
  | ignores =>
    simp only [Fits, ← Datum.items?_eq_some_iff_areTexts h]
    exact bind_eq_some_iff_config fun texts => ⟨{ standard with ignores := texts }, rfl⟩
  | format =>
    simp only [Fits, ← Format.ofDatum?_eq_some_iff h]
    exact bind_eq_some_iff_config fun format => ⟨{ standard with format := format }, rfl⟩

/-- A member of a field that a draft does not have is drawn as the field of a configuration that
its value fits, and a member of no field makes no difference.  No other members are drawn. -/
theorem drawMember?_eq_some_iff {draft next : Draft} {member : List Char × Datum}
    (hkey : IsLiteral member.1) (hvalue : member.2.Spelled) :
    draft.drawMember? member = some next ↔
      (∃ (field : Field) (config : Config), Names member field ∧ draft.has field = false ∧
        config.Fits member.2 field ∧ next = draft.adopt config field) ∨
      ((∃ content, Denotes member.1 content) ∧ (∀ field, ¬ Names member field) ∧
        next = draft) := by
  have hnames (field : Field) : (Datum.literal member.1).text? = some field.name
      ↔ Names member field := Datum.text?_eq_some_iff hkey
  constructor
  · intro h
    obtain ⟨key, htext, hdraw⟩ := Option.bind_eq_some_iff.1 h
    cases hfield : Field.ofName? key with
    | some field =>
      obtain rfl := Field.ofName?_eq_some_iff.1 hfield
      simp only [hfield] at hdraw
      split at hdraw
      · cases hdraw
      · rename_i hhas
        obtain ⟨config, hfits, hnext⟩ := (draw?_eq_some_iff hvalue).1 hdraw
        exact Or.inl ⟨field, config, (hnames field).1 htext, Bool.eq_false_iff.2 hhas, hfits,
          hnext⟩
    | none =>
      simp only [hfield] at hdraw
      refine Or.inr ⟨⟨_, (Datum.text?_eq_some_iff hkey).1 htext⟩, ?_,
        (Option.some.inj hdraw).symm⟩
      intro field hnamed
      rw [(hnames field).2 hnamed] at htext
      cases htext
      rw [Field.ofName?_name] at hfield
      cases hfield
  · rintro (⟨field, config, hfield, hhas, hfits, rfl⟩ | ⟨⟨content, hcontent⟩, hunnamed, rfl⟩)
    · rw [drawMember?, (hnames field).2 hfield, Option.bind_some]
      simp only [Field.ofName?_name, hhas, Bool.false_eq_true, if_false]
      exact (draw?_eq_some_iff hvalue).2 ⟨config, hfits, rfl⟩
    · have htext := Datum.text?_of_denotes hcontent
      rw [drawMember?, htext, Option.bind_some]
      cases hfield : Field.ofName? (String.ofList content) with
      | some field =>
        rw [Field.ofName?_eq_some_iff.1 hfield] at htext
        exact absurd ((hnames field).1 htext) (hunnamed field)
      | none => rfl

/-- Proper members make a draft adopt their fields. -/
theorem foldlM_drawMember?_of_proper {members : List (List Char × Datum)} {config : Config}
    {draft : Draft} (hspelled : ∀ member ∈ members, IsLiteral member.1 ∧ member.2.Spelled)
    (hproper : Proper members)
    (hgiven : ∀ member ∈ members, ∀ field, Names member field → config.Fits member.2 field)
    (hfresh : ∀ member ∈ members, ∀ field, Names member field → draft.has field = false) :
    ∃ fields, members.foldlM drawMember? draft = some (draft.adoptAll config fields) ∧
      ∀ field, field ∈ fields ↔ ∃ member ∈ members, Names member field := by
  induction members generalizing draft with
  | nil => exact ⟨[], rfl, by simp⟩
  | cons member members ih =>
    obtain ⟨⟨hkey, hvalue⟩, hspelled⟩ := List.forall_mem_cons.1 hspelled
    obtain ⟨hcontent, hnamed, hproper⟩ := proper_cons_iff.1 hproper
    obtain ⟨hfits, hgiven⟩ := List.forall_mem_cons.1 hgiven
    obtain ⟨hfirst, hfresh⟩ := List.forall_mem_cons.1 hfresh
    rw [List.foldlM_cons]
    by_cases hfield : ∃ field, Names member field
    · obtain ⟨field, hfield⟩ := hfield
      have hdraw : draft.drawMember? member = some (draft.adopt config field) :=
        (drawMember?_eq_some_iff hkey hvalue).2
          (Or.inl ⟨field, config, hfield, hfirst field hfield, hfits field hfield, rfl⟩)
      have hothers : ∀ other ∈ members, ∀ found, Names other found →
          (draft.adopt config field).has found = false := by
        intro other hother found hfound
        have hne : field ≠ found := by
          rintro rfl
          exact (hnamed field hfield).2 other hother hfound
        rw [has_adopt, hfresh other hother found hfound, decide_eq_false hne]
        rfl
      obtain ⟨fields, hfold, hfields⟩ := ih hspelled hproper hgiven hothers
      rw [hdraw]
      refine ⟨field :: fields, hfold, fun found => ?_⟩
      have hfound : found = field ↔ Names member found :=
        ⟨fun heq => heq ▸ hfield, fun hnames => hnames.unique hfield⟩
      simp only [List.mem_cons, hfound, hfields, exists_eq_or_imp]
    · have hunnamed : ∀ field, ¬ Names member field := not_exists.1 hfield
      have hdraw : draft.drawMember? member = some draft :=
        (drawMember?_eq_some_iff hkey hvalue).2 (Or.inr ⟨hcontent, hunnamed, rfl⟩)
      obtain ⟨fields, hfold, hfields⟩ := ih hspelled hproper hgiven hfresh
      rw [hdraw]
      refine ⟨fields, hfold, fun field => ?_⟩
      simp only [List.mem_cons, hfields, exists_eq_or_imp, hunnamed, false_or]

/-- Only proper members of fields that a draft does not have are drawn. -/
theorem proper_of_foldlM_drawMember? {members : List (List Char × Datum)}
    {draft final : Draft}
    (hspelled : ∀ member ∈ members, IsLiteral member.1 ∧ member.2.Spelled)
    (h : members.foldlM drawMember? draft = some final) :
    Proper members ∧
      ∀ member ∈ members, ∀ field, Names member field → draft.has field = false := by
  induction members generalizing draft with
  | nil => exact ⟨proper_nil, List.forall_mem_nil _⟩
  | cons member members ih =>
    obtain ⟨⟨hkey, hvalue⟩, hspelled⟩ := List.forall_mem_cons.1 hspelled
    rw [List.foldlM_cons] at h
    obtain ⟨next, hdraw, hfold⟩ := Option.bind_eq_some_iff.1 h
    obtain ⟨hproper, hfresh⟩ := ih hspelled hfold
    rcases (drawMember?_eq_some_iff hkey hvalue).1 hdraw with
      ⟨field, config, hfield, hhas, hfits, rfl⟩ | ⟨hcontent, hunnamed, rfl⟩
    · have hother : ∀ other ∈ members, ∀ found, Names other found →
          found ≠ field ∧ draft.has found = false := by
        intro other hother found hfound
        have hnone := hfresh other hother found hfound
        rw [has_adopt, Bool.or_eq_false_iff, decide_eq_false_iff_not] at hnone
        exact ⟨Ne.symm hnone.1, hnone.2⟩
      refine ⟨proper_cons_iff.2 ⟨⟨_, hfield⟩, ?_, hproper⟩, List.forall_mem_cons.2 ⟨?_, ?_⟩⟩
      · intro found hfound
        obtain rfl := hfield.unique hfound
        exact ⟨⟨config, hfits⟩, fun other hmem hnames => (hother other hmem _ hnames).1 rfl⟩
      · intro found hfound
        obtain rfl := hfield.unique hfound
        exact hhas
      · exact fun other hmem found hfound => (hother other hmem found hfound).2
    · exact ⟨proper_cons_iff.2 ⟨hcontent, fun field hfield => absurd hfield (hunnamed field),
        hproper⟩, List.forall_mem_cons.2 ⟨fun field hfield => absurd hfield (hunnamed field),
        hfresh⟩⟩

theorem agrees_adopt (draft : Draft) (config : Config) (field : Field) :
    config.Agrees (draft.adopt config field).finish field := by
  cases field <;> rfl

/-- What a draft gives of a configuration, it still gives when it adopts more of it. -/
theorem agrees_adopt_of_agrees {draft : Draft} {config : Config} {field : Field}
    (h : config.Agrees draft.finish field) (adopted : Field) :
    config.Agrees (draft.adopt config adopted).finish field := by
  by_cases heq : adopted = field
  · rw [heq]
    exact agrees_adopt draft config field
  · cases adopted <;> cases field <;> first | exact h | exact absurd rfl heq

theorem agrees_adoptAll {draft : Draft} {config : Config} {fields : List Field} {field : Field}
    (h : field ∈ fields ∨ config.Agrees draft.finish field) :
    config.Agrees (draft.adoptAll config fields).finish field := by
  induction fields generalizing draft with
  | nil => exact h.resolve_left List.not_mem_nil
  | cons adopted fields ih =>
    have hadopted : field ∈ fields ∨ config.Agrees (draft.adopt config adopted).finish field := by
      rcases h with hmem | hagrees
      · rcases List.mem_cons.1 hmem with rfl | hmem
        · exact Or.inr (agrees_adopt draft config field)
        · exact Or.inl hmem
      · exact Or.inr (agrees_adopt_of_agrees hagrees adopted)
    exact ih hadopted

end Draft

/-! ## Objects -/

section Object

variable {members : List (List Char × Datum)} {config : Config}

theorem ofDatum?_of_gives (h : (Datum.object members).Spelled) (hproper : Proper members)
    (hgives : Gives members config) : ofDatum? (.object members) = some config := by
  obtain ⟨fields, hfold, hfields⟩ := Draft.foldlM_drawMember?_of_proper h.members hproper
    hgives.given fun _ _ field _ => Draft.has_blank field
  have hfinish : config = (Draft.blank.adoptAll config fields).finish := by
    refine eq_of_agrees fun field => Draft.agrees_adoptAll ?_
    by_cases hfield : field ∈ fields
    · exact Or.inl hfield
    · refine Or.inr (hgives.absent field fun member hmember hnames => ?_)
      exact hfield ((hfields field).2 ⟨member, hmember, hnames⟩)
  rw [ofDatum?, Draft.ofDatum?, hfold, Option.map_some, ← hfinish]

/-- What an object gives as a configuration. -/
theorem ofDatum?_object (h : (Datum.object members).Spelled) :
    ofDatum? (.object members) = some config ↔ Proper members ∧ Gives members config := by
  constructor
  · intro hconfig
    obtain ⟨draft, hdraft, -⟩ := Option.map_eq_some_iff.1 hconfig
    obtain ⟨hproper, -⟩ := Draft.proper_of_foldlM_drawMember? h.members hdraft
    obtain ⟨given, hgiven⟩ := hproper.exists_gives
    rw [ofDatum?_of_gives h hproper hgiven] at hconfig
    cases hconfig
    exact ⟨hproper, hgiven⟩
  · rintro ⟨hproper, hgives⟩
    exact ofDatum?_of_gives h hproper hgives

end Object

/-- Two members of an object have the key of the field. -/
def Twice (members : List (List Char × Datum)) (field : Field) : Prop :=
  ∃ first second, [first, second].Sublist members ∧ Names first field ∧ Names second field

theorem Twice.not_proper {members : List (List Char × Datum)} {field : Field}
    (h : Twice members field) : ¬ Proper members := by
  obtain ⟨first, second, hsublist, hfirst, hsecond⟩ := h
  intro hproper
  exact List.pairwise_iff_forall_sublist.1 hproper.once hsublist field hfirst hsecond

/-- An object is read by its keys, whatever their order, the gaps between its tokens, the
spelling of its keys and texts, and the members of other keys.  It gives a configuration exactly
if its members are proper, and then the one with the given values and with standard values for
the fields that have none.  An object with two members of a field is not read. -/
theorem ofText_object {before text after : List Char} {members : List (List Char × Datum)}
    (hbefore : IsGap before) (h : Spells text (.object members)) (hafter : IsGap after) :
    (∀ config, ofText (String.ofList (before ++ (text ++ after))) = .ok config
        ↔ Proper members ∧ Gives members config) ∧
      (Proper members → ∃ config, Gives members config) ∧
      ∀ field, Twice members field →
        ∃ fault, ofText (String.ofList (before ++ (text ++ after))) = .error fault := by
  have hiff (config : Config) : ofText (String.ofList (before ++ (text ++ after))) = .ok config
      ↔ Proper members ∧ Gives members config :=
    (ofText_eq_ok_iff hbefore h hafter).trans (ofDatum?_object ⟨text, h⟩)
  refine ⟨hiff, Proper.exists_gives, ?_⟩
  intro field htwice
  have hnone : ofDatum? (.object members) = none := by
    rw [Option.eq_none_iff_forall_ne_some]
    exact fun config hconfig => htwice.not_proper ((ofDatum?_object ⟨text, h⟩).1 hconfig).1
  exact exists_ofText_fault hbefore h hafter hnone

/-- An object with an escaped key, a format as the key of `null`, and between them a member of no
field with values that fit no type. -/
def oddObject : String :=
  "\x7b \"\\u0072oot\" : \"a\\/b\",\"x\":[\"\\ud800\", 1e999] ,\"format\":\x7b\"json\":null\x7d\x7d"

/-- The members of the object. -/
def oddMembers : List (List Char × Datum) :=
  [("\\u0072oot".toList, .literal "a\\/b".toList),
    ("x".toList, .list [.literal "\\ud800".toList, .numeral "1e999".toList]),
    ("format".toList, .object [("json".toList, .null)])]

theorem spells_oddObject : Spells oddObject.toList (.object oddMembers) := by
  have hplain : ∀ content : List Char, content.flatMap escapeLiteral = content →
      IsLiteral content := fun content h => h ▸ isLiteral_flatMap_escape content
  have hroot : IsLiteral "\\u0072oot".toList :=
    .unit (rfl : unit? '0' '0' '7' '2' = some 0x72) (hplain "oot".toList rfl)
  have hslash : IsLiteral "a\\/b".toList :=
    .plain (by decide) (by decide) (by decide) (.letter rfl (hplain "b".toList rfl))
  have hlone : IsLiteral "\\ud800".toList :=
    .unit (rfl : unit? 'd' '8' '0' '0' = some 0xD800) .nil
  have hhuge : IsNumeral "1e999".toList :=
    .positive (.parts (isWhole_toDigits 1) .none
      (.some rfl (Or.inl rfl) (isDigits_toDigits 999)))
  have hlist : Spells "[\"\\ud800\", 1e999]".toList _ :=
    .values (.more isGap_nil (.literal hlone) isGap_nil
      (.last isGap_blank (.numeral hhuge) isGap_nil))
  have hformat : Spells "\x7b\"json\":null\x7d".toList _ :=
    .members (.last isGap_nil
      (.pair (hplain "json".toList rfl) isGap_nil isGap_nil .null) isGap_nil)
  exact .members
    (.more isGap_blank (.pair hroot isGap_blank isGap_blank (.literal hslash)) isGap_nil
      (.more isGap_nil (.pair (hplain "x".toList rfl) isGap_nil isGap_nil hlist) isGap_blank
        (.last isGap_nil (.pair (hplain "format".toList rfl) isGap_nil isGap_nil hformat)
          isGap_nil)))

theorem ofText_oddObject :
    Spells oddObject.toList (.object oddMembers) ∧ Proper oddMembers ∧
      ofText (String.ofList ([] ++ (oddObject.toList ++ [' '])))
        = .ok ⟨"a/b", ["feature"], [], .json⟩ := by
  have hmeans : ofDatum? (.object oddMembers) = some ⟨"a/b", ["feature"], [], .json⟩ := by
    decide +kernel
  obtain ⟨hproper, hgives⟩ := (ofDatum?_object ⟨_, spells_oddObject⟩).1 hmeans
  have hread := (ofText_object isGap_nil spells_oddObject isGap_blank).1
  exact ⟨spells_oddObject, hproper, (hread _).2 ⟨hproper, hgives⟩⟩

end Config

end FeatureDigest
