import FeatureDigest.Config.Discovery
import FeatureDigest.Proofs.FileTree.Plain
import FeatureDigest.Proofs.Json.Tame

/-!
# Configurations without escape characters

A tame text is read to a configuration of which nothing shown has an escape character, or it is
refused with a message without one (`yields_ofText`, `plain_load`).
-/

set_option autoImplicit false

namespace FeatureDigest

open Text (escape)

namespace Json

/-! ## Values of another type -/

/-- Reading a number, whether it succeeds or not, names nothing. -/
theorem yields_floatOf (negative : Bool) (parts : Parts) (rest : List Char) :
    Yields (fun _ => True) (floatOf negative parts rest) := by
  unfold floatOf
  split <;> trivial

theorem yields_readScaled (negative : Bool) (parts : Parts) (text : List Char) :
    Yields (fun _ => True) (readScaled negative parts text) := by
  unfold readScaled
  dsimp only
  split
  · trivial
  · split
    · split
      · exact yields_floatOf ..
      · split <;> trivial
    · trivial

theorem yields_readFloatEnd (negative : Bool) (parts : Parts) (text : List Char) :
    Yields (fun _ => True) (readFloatEnd negative parts text) := by
  unfold readFloatEnd
  split
  · split
    · exact yields_readScaled ..
    · exact yields_floatOf ..
  · exact yields_floatOf ..

theorem yields_readNumberEnd (negative : Bool) (parts : Parts) (text : List Char) :
    Yields (fun _ => True) (readNumberEnd negative parts text) := by
  unfold readNumberEnd
  split
  · split
    · trivial
    · trivial
    · exact yields_readFloatEnd ..
  · split
    · dsimp only
      split
      · trivial
      · split
        · exact yields_floatOf ..
        · trivial
    · exact yields_readFloatEnd ..

theorem yields_readNumber (negative : Bool) (text : List Char) :
    Yields (fun _ => True) (readNumber negative text) := by
  unfold readNumber
  split
  · trivial
  · split
    · trivial
    · exact yields_readNumberEnd ..
  · split
    · exact yields_readNumberEnd ..
    · trivial

/-- The fault of a value that was not asked for names nothing: what it shows is quoted. -/
theorem plain_mismatch (wanted : Wanted) {text : List Char} (h : Tame text) :
    (mismatch wanted text).cause.Plain := by
  unfold mismatch
  dsimp only
  split
  · split
    · trivial
    · rename_i hread
      exact Yields.plain (yields_readWord (by decide) (h.tail (by decide))) hread
  · split
    · trivial
    · rename_i hread
      exact Yields.plain (yields_readWord (by decide) (h.tail (by decide))) hread
  · split
    · trivial
    · rename_i hread
      exact Yields.plain (yields_readWord (by decide) (h.tail (by decide))) hread
  · split
    · trivial
    · rename_i hread
      exact (yields_readNumber true _).plain hread
  · split
    · trivial
    · rename_i hread
      exact (yields_readLiteral (h.tail (by decide))).plain hread
  · trivial
  · trivial
  · trivial
  · split
    · split
      · trivial
      · rename_i hread
        exact (yields_readNumber false _).plain hread
    · trivial

/-! ## Texts -/

theorem yields_readText {text : List Char} (h : Tame text) :
    Reads Text.Plain (readText text) := by
  unfold readText
  split
  · rename_i rest hquote
    apply (yields_readLiteral (h.after (by decide) hquote)).bind
    rintro ⟨content, rest⟩ ⟨hcontent, hrest⟩
    exact ⟨Text.plain_ofList.2 hcontent, hrest⟩
  · exact plain_mismatch .text h.skipSpace

theorem yields_readNull {text : List Char} (h : Tame text) : Yields Tame (readNull text) := by
  unfold readNull
  split
  · rename_i rest hfirst
    exact yields_readWord (by decide) (h.after (by decide) hfirst)
  · exact plain_mismatch .null h.skipSpace

theorem yields_afterComma {text : List Char} (h : Tame text) : Yields Tame (afterComma text) := by
  unfold afterComma
  split
  · trivial
  · trivial
  · exact h.skipSpace

/-- No text of the list has an escape character. -/
abbrev PlainTexts (texts : List String) : Prop := ∀ text ∈ texts, Text.Plain text

theorem plainTexts_cons {content : String} {contents : List String} (h : Text.Plain content)
    (hmore : PlainTexts contents) : PlainTexts (content :: contents) :=
  List.forall_mem_cons.2 ⟨h, hmore⟩

theorem yields_readMoreTexts (fuel : Nat) {text : List Char} (h : Tame text) :
    Reads PlainTexts (readMoreTexts fuel text) := by
  induction fuel generalizing text with
  | zero => trivial
  | succ fuel ih =>
    unfold readMoreTexts
    split
    · rename_i rest hclose
      exact ⟨nofun, h.after (by decide) hclose⟩
    · rename_i rest hcomma
      apply (yields_afterComma (h.after (by decide) hcomma)).bind
      intro rest hrest
      apply (yields_readText hrest).bind
      rintro ⟨content, rest⟩ ⟨hcontent, hrest⟩
      apply (ih hrest).bind
      rintro ⟨contents, rest⟩ ⟨hcontents, hrest⟩
      exact ⟨plainTexts_cons hcontent hcontents, hrest⟩
    · trivial
    · trivial

theorem yields_readTexts {text : List Char} (h : Tame text) :
    Reads PlainTexts (readTexts text) := by
  unfold readTexts
  split
  · rename_i rest hopen
    have hrest := h.after (by decide) hopen
    split
    · rename_i rest hclose
      exact ⟨nofun, hrest.after (by decide) hclose⟩
    · trivial
    · apply (yields_readText hrest.skipSpace).bind
      rintro ⟨content, rest⟩ ⟨hcontent, hrest⟩
      apply (yields_readMoreTexts _ hrest).bind
      rintro ⟨contents, rest⟩ ⟨hcontents, hrest⟩
      exact ⟨plainTexts_cons hcontent hcontents, hrest⟩
  · exact plain_mismatch .list h.skipSpace

end Json

open Json

/-! ## Fields -/

theorem Format.yields_ofLiteral {name rest : List Char} (hname : escape ∉ name)
    (h : Tame rest) : Reads (fun _ => True) (Format.ofLiteral name rest) := by
  unfold Format.ofLiteral
  split
  · exact ⟨trivial, h⟩
  · exact hname

theorem Format.yields_read {text : List Char} (h : Tame text) :
    Reads (fun _ => True) (Format.read text) := by
  unfold Format.read
  split
  · rename_i rest hquote
    apply (yields_readLiteral (h.after (by decide) hquote)).bind
    rintro ⟨name, rest⟩ ⟨hname, hrest⟩
    exact Format.yields_ofLiteral hname hrest
  · rename_i rest hopen
    have hrest := h.after (by decide) hopen
    split
    · rename_i rest hquote
      apply (yields_readLiteral (hrest.after (by decide) hquote)).bind
      rintro ⟨name, rest⟩ ⟨hname, hrest⟩
      apply (Format.yields_ofLiteral hname hrest).bind
      rintro ⟨format, rest⟩ ⟨_, hrest⟩
      apply (yields_readColon hrest).bind
      intro rest hrest
      apply (yields_readNull hrest).bind
      intro rest hrest
      dsimp only
      split
      · rename_i rest hclose
        exact ⟨trivial, hrest.after (by decide) hclose⟩
      · trivial
      · trivial
    · trivial
    · trivial
    · trivial
  · trivial
  · trivial

namespace Config

/-- No text of the configuration that is shown has an escape character: extensions are not. -/
structure Plain (config : Config) : Prop where
  root : Text.Plain config.root
  ignores : PlainTexts config.ignores

theorem plain_standard : standard.Plain := ⟨by decide, nofun⟩

namespace Draft

/-- No field read so far has an escape character. -/
structure Plain (draft : Draft) : Prop where
  root : ∀ root ∈ draft.root, Text.Plain root
  ignores : ∀ ignores ∈ draft.ignores, PlainTexts ignores

theorem plain_blank : blank.Plain := ⟨nofun, nofun⟩

theorem Plain.finish {draft : Draft} (h : draft.Plain) : draft.finish.Plain := by
  constructor
  · cases hroot : draft.root with
    | none =>
      rw [Draft.finish, hroot]
      exact plain_standard.root
    | some root =>
      rw [Draft.finish, hroot]
      exact h.root root hroot
  · cases hignores : draft.ignores with
    | none =>
      rw [Draft.finish, hignores]
      exact plain_standard.ignores
    | some ignores =>
      rw [Draft.finish, hignores]
      exact h.ignores ignores hignores

theorem yields_readField {draft : Draft} (hdraft : draft.Plain) (field : Field)
    {text : List Char} (h : Tame text) : Reads Plain (draft.readField field text) := by
  cases field with
  | root =>
    apply (yields_readText h).bind
    rintro ⟨root, rest⟩ ⟨hroot, hrest⟩
    refine ⟨⟨?_, hdraft.ignores⟩, hrest⟩
    rintro _ ⟨⟩
    exact hroot
  | extensions =>
    apply (yields_readTexts h).bind
    rintro ⟨extensions, rest⟩ ⟨_, hrest⟩
    exact ⟨⟨hdraft.root, hdraft.ignores⟩, hrest⟩
  | ignores =>
    apply (yields_readTexts h).bind
    rintro ⟨ignores, rest⟩ ⟨hignores, hrest⟩
    refine ⟨⟨hdraft.root, ?_⟩, hrest⟩
    rintro _ ⟨⟩
    exact hignores
  | format =>
    apply (Format.yields_read h).bind
    rintro ⟨format, rest⟩ ⟨_, hrest⟩
    exact ⟨⟨hdraft.root, hdraft.ignores⟩, hrest⟩

theorem plain_duplicateFault (field : Field) (text : List Char) :
    (duplicateFault field text).cause.Plain := by
  have hname : Text.Plain field.name := by cases field <;> decide
  unfold duplicateFault
  split
  · exact hname
  · exact hname

/-! ## Objects and lists -/

theorem yields_readMember {draft : Draft} (hdraft : draft.Plain) {text : List Char}
    (h : Tame text) : Reads Plain (draft.readMember text) := by
  apply (yields_readLiteral h).bind
  rintro ⟨key, rest⟩ ⟨_, hrest⟩
  dsimp only
  split
  · rename_i field _
    split
    · exact plain_duplicateFault field rest
    · apply (yields_readColon hrest).bind
      intro rest hrest
      exact yields_readField hdraft field hrest
  · apply (yields_readColon hrest).bind
    intro rest hrest
    apply (yields_skipValue hrest).bind
    intro rest hrest
    exact ⟨hdraft, hrest⟩

theorem yields_readMoreMembers (fuel : Nat) {draft : Draft} (hdraft : draft.Plain)
    {text : List Char} (h : Tame text) : Reads Plain (readMoreMembers fuel draft text) := by
  induction fuel generalizing draft text with
  | zero => trivial
  | succ fuel ih =>
    unfold readMoreMembers
    split
    · rename_i rest hclose
      exact ⟨hdraft, h.after (by decide) hclose⟩
    · rename_i rest hcomma
      have hrest := h.after (by decide) hcomma
      split
      · rename_i rest hquote
        apply (yields_readMember hdraft (hrest.after (by decide) hquote)).bind
        rintro ⟨draft, rest⟩ ⟨hdraft, hrest⟩
        exact ih hdraft hrest
      · trivial
      · trivial
      · trivial
    · trivial
    · trivial

theorem yields_readObject {text : List Char} (h : Tame text) :
    Reads Plain (readObject text) := by
  unfold readObject
  split
  · rename_i rest hclose
    exact ⟨plain_blank, h.after (by decide) hclose⟩
  · rename_i rest hquote
    apply (yields_readMember plain_blank (h.after (by decide) hquote)).bind
    rintro ⟨draft, rest⟩ ⟨hdraft, hrest⟩
    exact yields_readMoreMembers _ hdraft hrest
  · trivial
  · trivial

theorem yields_readListEnd {draft : Draft} (hdraft : draft.Plain) {text : List Char}
    (h : Tame text) : Reads Plain (draft.readListEnd text) := by
  unfold readListEnd
  split
  · rename_i rest hclose
    exact ⟨hdraft, h.after (by decide) hclose⟩
  · split <;> trivial
  · trivial
  · trivial

theorem yields_readMoreFields (fields : List Field) {draft : Draft} (hdraft : draft.Plain)
    {text : List Char} (h : Tame text) : Reads Plain (readMoreFields fields draft text) := by
  induction fields generalizing draft text with
  | nil => exact yields_readListEnd hdraft h
  | cons field fields ih =>
    unfold readMoreFields
    split
    · rename_i rest hclose
      exact ⟨hdraft, h.after (by decide) hclose⟩
    · rename_i rest hcomma
      apply (yields_afterComma (h.after (by decide) hcomma)).bind
      intro rest hrest
      apply (yields_readField hdraft field hrest).bind
      rintro ⟨draft, rest⟩ ⟨hdraft, hrest⟩
      exact ih hdraft hrest
    · trivial
    · trivial

theorem yields_readList {text : List Char} (h : Tame text) : Reads Plain (readList text) := by
  unfold readList
  split
  · rename_i rest hclose
    exact ⟨plain_blank, h.after (by decide) hclose⟩
  · trivial
  · apply (yields_readField plain_blank .root h.skipSpace).bind
    rintro ⟨draft, rest⟩ ⟨hdraft, hrest⟩
    exact yields_readMoreFields _ hdraft hrest

theorem yields_read {text : List Char} (h : Tame text) : Reads Plain (read text) := by
  unfold read
  split
  · rename_i rest hopen
    exact yields_readObject (h.after (by decide) hopen)
  · rename_i rest hopen
    exact yields_readList (h.after (by decide) hopen)
  · exact plain_mismatch .config h.skipSpace

end Draft

/-- A tame text is read to a configuration without escape characters. -/
theorem yields_ofText {text : String} (h : Tame text.toList) : Yields Plain (ofText text) := by
  apply (Draft.yields_read h).bind
  rintro ⟨draft, rest⟩ ⟨hdraft, _⟩
  dsimp only
  split
  · exact hdraft.finish
  · trivial

/-! ## Messages -/

theorem plain_globMessage (fault : Glob.Fault) : Text.Plain fault.message := by
  have hcause : Text.Plain fault.cause.message := by cases fault.cause <;> decide
  exact ((Text.Plain.append (by decide) (Text.plain_nat _)).append (by decide)).append hcause

theorem plain_checkIgnores {entries : List String} (h : PlainTexts entries) {invalid : Invalid}
    (hinvalid : checkIgnores entries = .error invalid) : Text.Plain invalid.message := by
  induction entries with
  | nil => cases hinvalid
  | cons entry entries ih =>
    obtain ⟨hentry, hentries⟩ := List.forall_mem_cons.1 h
    rw [checkIgnores] at hinvalid
    split at hinvalid
    · exact ih hentries hinvalid
    · rename_i fault _
      cases hinvalid
      exact ((Text.Plain.append (by decide) hentry).append (by decide)).append
        (plain_globMessage fault)

theorem Plain.invalid {config : Config} (h : config.Plain) {invalid : Invalid}
    (hinvalid : config.validate = .error invalid) : Text.Plain invalid.message := by
  unfold validate at hinvalid
  cases hcheck : checkIgnores config.ignores with
  | error fault =>
    rw [hcheck] at hinvalid
    cases hinvalid
    exact plain_checkIgnores h.ignores hcheck
  | ok _ =>
    rw [hcheck] at hinvalid
    change (if _ then _ else _) = _ at hinvalid
    split at hinvalid
    · cases hinvalid
      decide
    · cases hinvalid

/-- The configuration in a file with a tame text, and the message when there is none. -/
theorem plain_ofFile {tree : FileTree} {path : Path}
    (h : ∀ text, tree.readText path = .ok text → Tame text.toList) :
    match ofFile tree path with
    | .ok config => config.Plain
    | .error fault => Text.Plain fault.message := by
  unfold ofFile
  cases hread : tree.readText path with
  | error cause =>
    exact ((Text.Plain.append (by decide) (Text.plain_quoted _)).append (by decide)).append
      cause.plain_message
  | ok text =>
    have hyields := yields_ofText (h text hread)
    dsimp only
    cases htext : ofText text with
    | error cause =>
      rw [htext] at hyields
      exact ((Text.Plain.append (by decide) (Text.plain_quoted _)).append (by decide)).append
        (Fault.plain_message hyields text.toList)
    | ok config =>
      rw [htext] at hyields
      dsimp only
      cases hvalid : config.validate with
      | error invalid => exact Plain.invalid hyields hvalid
      | ok _ => exact hyields

/-- The configuration for a folder, and the message when there is none. -/
theorem plain_load {tree : FileTree} (start : Path)
    (h : ∀ folder text, tree.readText (fileIn folder) = .ok text → Tame text.toList) :
    match load tree start with
    | .ok loaded => loaded.config.Plain
    | .error fault => Text.Plain fault.message := by
  unfold load
  cases hfile : findFile? tree start with
  | none => exact plain_standard
  | some path =>
    have hpath : ∃ folder, path = fileIn folder := by
      unfold findFile? at hfile
      split at hfile
      · rename_i folder _
        split at hfile
        · cases hfile
          exact ⟨folder, rfl⟩
        · cases hfile
      · cases hfile
    obtain ⟨folder, rfl⟩ := hpath
    have hplain := plain_ofFile (h folder)
    dsimp only
    cases hof : ofFile tree (fileIn folder) with
    | error fault =>
      rw [hof] at hplain
      exact hplain
    | ok config =>
      rw [hof] at hplain
      exact hplain

end Config

end FeatureDigest
