import FeatureDigest.Proofs.Command.Reading
import FeatureDigest.Proofs.Text.Plain

/-!
# Arguments without escape characters

Arguments without escape characters are read to a command of which nothing shown has one
(`ScanArguments.Plain.read`): a folder and ignores are whole arguments, or what follows an equals
sign in one.
-/

set_option autoImplicit false

namespace FeatureDigest

/-! ## Arguments -/

/-- What comes out, if anything does, has a property. -/
def Accepts {ε α : Type} (P : α → Prop) : Except ε α → Prop
  | .ok value => P value
  | .error _ => True

namespace Accepts

variable {ε α β : Type} {P : α → Prop} {Q : β → Prop}

theorem bind {outcome : Except ε α} {next : α → Except ε β} (h : Accepts P outcome)
    (hnext : ∀ value, P value → Accepts Q (next value)) : Accepts Q (outcome >>= next) := by
  cases outcome with
  | error cause => trivial
  | ok value => exact hnext value h

theorem map {outcome : Except ε α} {change : α → β}
    (h : Accepts (fun value => Q (change value)) outcome) :
    Accepts Q (outcome.map change) := by
  cases outcome with
  | error cause => trivial
  | ok value => exact h

theorem orReply {outcome : Except Misuse α} (h : Accepts P outcome) :
    Accepts P (ScanArguments.orReply outcome) := by
  cases outcome with
  | error cause => trivial
  | ok value => exact h

end Accepts

theorem mem_of_mem_splitEquals {c : Char} {text value : List Char}
    (hvalue : (splitEquals text).2 = some value) (hc : c ∈ value) : c ∈ text := by
  induction text with
  | nil => cases hvalue
  | cons first text ih =>
    rw [splitEquals] at hvalue
    split at hvalue
    · cases hvalue
      exact List.mem_cons_of_mem first hc
    · exact List.mem_cons_of_mem first (ih hvalue)

theorem Word.mem_of_mem_value {c : Char} {text name value : List Char}
    (hword : Word.ofText text = .long name (some value)) (hc : c ∈ value) : c ∈ text := by
  unfold Word.ofText at hword
  split at hword
  · cases hword
  · rename_i rest _
    have hvalue : (splitEquals rest).2 = some value := (Word.long.inj hword).2
    simp [mem_of_mem_splitEquals hvalue hc]
  · cases hword
  · cases hword

namespace ScanArguments

/-- Neither the folder to scan nor an ignore has an escape character. -/
structure Plain (arguments : ScanArguments) : Prop where
  path : ∀ path ∈ arguments.path, Text.Plain path.text
  ignores : ∀ entry ∈ arguments.ignores, Text.Plain entry

/-- What is held has no escape character. -/
def Held.Plain : Held → Prop
  | .value _ (some given) => Text.Plain given
  | .operand text => Text.Plain text
  | _ => True

/-- Neither what was read has an escape character, nor what is held. -/
def ReadPlain (read : ScanArguments × Held) : Prop := read.1.Plain ∧ read.2.Plain

variable {arguments : ScanArguments} {held : Held}

theorem plain_bare : bare.Plain := ⟨nofun, nofun⟩

theorem Plain.setValue (h : arguments.Plain) {value : String} (hvalue : Text.Plain value)
    (option : ValueOption) : Accepts Plain (arguments.setValue value option) := by
  cases option with
  | format =>
    rw [ScanArguments.setValue]
    split
    · trivial
    · split
      · exact ⟨h.path, h.ignores⟩
      · trivial
  | ignore =>
    refine ⟨h.path, ?_⟩
    intro entry hentry
    rcases List.mem_append.1 hentry with hentry | hentry
    · exact h.ignores entry hentry
    · rw [List.mem_singleton.1 hentry]
      exact hvalue
  | extension => exact ⟨h.path, h.ignores⟩

theorem Plain.settle (h : arguments.Plain) (hheld : held.Plain) :
    Accepts Plain (orReply (arguments.settle held)) := by
  apply Accepts.orReply
  cases held with
  | nothing => exact h
  | value option value =>
    cases value with
    | none => trivial
    | some value => exact h.setValue hheld option
  | operand text =>
    rw [ScanArguments.settle]
    split
    · trivial
    · refine ⟨?_, h.ignores⟩
      rintro _ ⟨⟩
      exact hheld

theorem Plain.setVerbose (h : arguments.Plain) :
    Accepts Plain (orReply arguments.setVerbose) := by
  apply Accepts.orReply
  unfold ScanArguments.setVerbose
  split
  · trivial
  · exact ⟨h.path, h.ignores⟩

theorem Plain.readLetters (h : arguments.Plain) (hheld : held.Plain) (letters : List Char) :
    Accepts ReadPlain (arguments.readLetters held letters) := by
  induction letters generalizing arguments held with
  | nil => exact ⟨h, hheld⟩
  | cons letter letters ih =>
    rw [ScanArguments.readLetters]
    split
    · apply (h.settle hheld).bind
      intro settled hsettled
      apply hsettled.setVerbose.bind
      intro verbose hverbose
      exact ih hverbose trivial
    · split
      · exact (h.settle hheld).bind fun _ _ => trivial
      · trivial

theorem Plain.readLong (h : arguments.Plain) (hheld : held.Plain) (name : List Char)
    {value : Option String} (hvalue : ∀ text ∈ value, Text.Plain text) :
    Accepts ReadPlain (arguments.readLong held name value) := by
  unfold ScanArguments.readLong
  split
  · split
    · trivial
    · apply (h.settle hheld).bind
      intro settled hsettled
      apply hsettled.setVerbose.bind
      intro verbose hverbose
      exact ⟨hverbose, trivial⟩
  · split
    · split
      · trivial
      · exact (h.settle hheld).bind fun _ _ => trivial
    · split
      · trivial
      · apply (h.settle hheld).bind
        intro settled hsettled
        exact ⟨hsettled, trivial⟩
      · rename_i option text _
        apply (h.settle hheld).bind
        intro settled hsettled
        apply (hsettled.setValue (hvalue text rfl) option).orReply.bind
        intro given hgiven
        exact ⟨hgiven, trivial⟩

theorem Plain.readOperand (h : arguments.Plain) (hheld : held.Plain) {text : String}
    (htext : Text.Plain text) : Accepts ReadPlain (arguments.readOperand held text) := by
  unfold ScanArguments.readOperand
  split
  · apply (h.settle hheld).bind
    intro settled hsettled
    exact ⟨hsettled, htext⟩
  · trivial

theorem Plain.readOperands (h : arguments.Plain) (hheld : held.Plain) {texts : List String}
    (htexts : ∀ text ∈ texts, Text.Plain text) :
    Accepts Plain (arguments.readOperands held texts) := by
  induction texts generalizing arguments held with
  | nil => exact h.settle hheld
  | cons text texts ih =>
    obtain ⟨htext, htexts⟩ := List.forall_mem_cons.1 htexts
    apply (h.readOperand hheld htext).bind
    rintro ⟨arguments, held⟩ ⟨harguments, hheld⟩
    exact ih harguments hheld htexts

/-- Arguments without escape characters are read to arguments without. -/
theorem Plain.read (h : arguments.Plain) (hheld : held.Plain) {texts : List String}
    (htexts : ∀ text ∈ texts, Text.Plain text) : Accepts Plain (arguments.read held texts) := by
  induction texts generalizing arguments held with
  | nil => exact h.settle hheld
  | cons text texts ih =>
    obtain ⟨htext, htexts⟩ := List.forall_mem_cons.1 htexts
    have honward (read : ScanArguments × Held) (hread : ReadPlain read) :
        Accepts Plain (read.1.read read.2 texts) := ih hread.1 hread.2 htexts
    cases hword : Word.ofText text.toList with
    | escape =>
      rw [read_escape hword]
      exact h.readOperands hheld htexts
    | long name value =>
      rw [read_long hword]
      refine (h.readLong hheld name ?_).bind honward
      rintro _ hvalue
      obtain ⟨chars, rfl, rfl⟩ := Option.map_eq_some_iff.1 hvalue
      exact Text.plain_ofList.2 fun hc => htext (Word.mem_of_mem_value hword hc)
    | letters letters =>
      rw [read_letters hword]
      exact (h.readLetters hheld letters).bind honward
    | plain =>
      cases hcomplete : held.complete with
      | true =>
        rw [read_plain hword hcomplete]
        exact (h.readOperand hheld htext).bind honward
      | false =>
        obtain ⟨option, rfl⟩ := Held.of_not_complete hcomplete
        rw [read_value hword]
        exact ih h htext htexts

end ScanArguments

namespace Command

/-- Nothing that the command shows of its arguments has an escape character. -/
def Plain : Option Command → Prop
  | some (.scan arguments) => arguments.Plain
  | _ => True

theorem plain_readInit (texts : List String) :
    Accepts (fun command => Plain (some command)) (readInit texts) := by
  unfold readInit
  split
  · trivial
  · split
    · split <;> trivial
    · split <;> trivial
    · trivial
    · trivial

theorem plain_readFlags (text : String) (texts : List String) :
    Accepts Plain (readFlags text texts) := by
  unfold readFlags
  split
  · split <;> trivial
  · split
    · trivial
    · split <;> trivial
  · trivial
  · trivial

theorem plain_ofArguments {texts : List String} (h : ∀ text ∈ texts, Text.Plain text) :
    Accepts Plain (ofArguments texts) := by
  unfold ofArguments
  split
  · trivial
  · rename_i text texts
    split
    · have hnothing : ScanArguments.Held.nothing.Plain := trivial
      have hread : Accepts (fun arguments => Plain (some (.scan arguments)))
          (ScanArguments.bare.read .nothing texts) :=
        ScanArguments.plain_bare.read hnothing (List.forall_mem_cons.1 h).2
      exact hread.map
    · exact (plain_readInit texts).map
    · trivial
    · exact plain_readFlags text texts

end Command

end FeatureDigest
