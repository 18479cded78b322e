import FeatureDigest.Command.Arguments

/-!
# The flag for more messages among the arguments

Wherever the flag for more messages can stand among the arguments of a scan that do not have
it, it only turns on more messages (`read_insert_verbose`).  What is held when the flag comes
is settled earlier than without it; this can change the cause that is found first when the
arguments are misused, but nothing else (`echoes_settle`).
-/

set_option autoImplicit false

namespace FeatureDigest.ScanArguments

/-! ## Readings -/

/-- Two readings have the same result, or are both a misuse. -/
inductive Echoes {α : Type} : Except Reply α → Except Reply α → Prop
  | same (result : Except Reply α) : Echoes result result
  | misuse (first second : Misuse) :
      Echoes (.error (.misuse first)) (.error (.misuse second))

namespace Echoes

variable {α β : Type} {first second third : Except Reply α}

theorem symm (h : Echoes first second) : Echoes second first := by
  cases h with
  | same => exact .same first
  | misuse one other => exact .misuse other one

theorem map (h : Echoes first second) (change : α → β) :
    Echoes (first.map change) (second.map change) := by
  cases h with
  | same => exact .same _
  | misuse one other => exact .misuse one other

theorem bind (h : Echoes first second) (next : α → Except Reply β) :
    Echoes (first >>= next) (second >>= next) := by
  cases h with
  | same => exact .same _
  | misuse one other => exact .misuse one other

end Echoes

/-! ## One argument -/

theorem read_long {text : String} {name : List Char} {value : Option (List Char)}
    (hword : Word.ofText text.toList = .long name value) (arguments : ScanArguments)
    (held : Held) (texts : List String) :
    arguments.read held (text :: texts) = (do
      let (arguments, held) ← arguments.readLong held name (value.map String.ofList)
      arguments.read held texts) := by
  cases held with
  | nothing => simp only [read, hword]
  | value option value => cases value <;> simp only [read, hword]
  | operand other => simp only [read, hword]

theorem read_letters {text : String} {letters : List Char}
    (hword : Word.ofText text.toList = .letters letters) (arguments : ScanArguments)
    (held : Held) (texts : List String) :
    arguments.read held (text :: texts) = (do
      let (arguments, held) ← arguments.readLetters held letters
      arguments.read held texts) := by
  cases held with
  | nothing => simp only [read, hword]
  | value option value => cases value <;> simp only [read, hword]
  | operand other => simp only [read, hword]

theorem read_escape {text : String} (hword : Word.ofText text.toList = .escape)
    (arguments : ScanArguments) (held : Held) (texts : List String) :
    arguments.read held (text :: texts) = arguments.readOperands held texts := by
  cases held with
  | nothing => simp only [read, hword]
  | value option value => cases value <;> simp only [read, hword]
  | operand other => simp only [read, hword]

theorem read_value {text : String} (hword : Word.ofText text.toList = .plain)
    (arguments : ScanArguments) (option : ValueOption) (texts : List String) :
    arguments.read (.value option none) (text :: texts)
      = arguments.read (.value option (some text)) texts := by
  rw [read]
  simp only [hword]

/-- Something is held that does not wait for a value. -/
def Held.complete : Held → Bool
  | .value _ none => false
  | _ => true

theorem Held.of_not_complete {held : Held} (h : held.complete = false) :
    ∃ option, held = .value option none := by
  cases held with
  | nothing => cases h
  | value option value =>
    cases value with
    | none => exact ⟨option, rfl⟩
    | some value => cases h
  | operand other => cases h

theorem read_plain {text : String} {held : Held} (hword : Word.ofText text.toList = .plain)
    (hheld : held.complete = true) (arguments : ScanArguments) (texts : List String) :
    arguments.read held (text :: texts) = (do
      let (arguments, held) ← arguments.readOperand held text
      arguments.read held texts) := by
  cases held with
  | nothing => simp only [read, hword]
  | value option value =>
    cases value with
    | none => cases hheld
    | some value => simp only [read, hword]
  | operand other => simp only [read, hword]

/-! ## More messages -/

/-- The arguments with or without the flag for more messages. -/
def withVerbose (verbose : Bool) (arguments : ScanArguments) : ScanArguments :=
  { arguments with verbose }

/-- The flag for more messages is among the texts that are read before any `--`. -/
def givesVerbose : List String → Bool
  | [] => false
  | text :: texts =>
    match Word.ofText text.toList with
    | .escape => false
    | .long name value => (name == "verbose".toList && value.isNone) || givesVerbose texts
    | .letters letters => letters.contains 'v' || givesVerbose texts
    | .plain => givesVerbose texts

theorem setValue_withVerbose (verbose : Bool) (arguments : ScanArguments)
    (value : String) (option : ValueOption) :
    (arguments.withVerbose verbose).setValue value option
      = (arguments.setValue value option).map (withVerbose verbose) := by
  cases option with
  | format =>
    have hformat : (arguments.withVerbose verbose).format = arguments.format := rfl
    rw [setValue, setValue, hformat]
    split
    · rfl
    · cases Format.ofName? value <;> rfl
  | ignore => rfl
  | extension => rfl

theorem settle_withVerbose (verbose : Bool) (arguments : ScanArguments) (held : Held) :
    (arguments.withVerbose verbose).settle held
      = (arguments.settle held).map (withVerbose verbose) := by
  cases held with
  | nothing => rfl
  | value option value =>
    cases value with
    | none => rfl
    | some value => exact arguments.setValue_withVerbose verbose value option
  | operand text =>
    rw [settle, settle]
    split <;> rfl

/-- What was read, with or without the flag for more messages. -/
def readVerbose (verbose : Bool) (read : ScanArguments × Held) : ScanArguments × Held :=
  (read.1.withVerbose verbose, read.2)

theorem readOperand_withVerbose (verbose : Bool) (arguments : ScanArguments) (held : Held)
    (text : String) :
    (arguments.withVerbose verbose).readOperand held text
      = (arguments.readOperand held text).map (readVerbose verbose) := by
  have hwants : (arguments.withVerbose verbose).wantsOperand held
      = arguments.wantsOperand held := by
    cases held <;> rfl
  rw [readOperand, readOperand, hwants, settle_withVerbose]
  split
  · cases arguments.settle held <;> rfl
  · rfl

theorem readLong_withVerbose {name : List Char} {value : Option String}
    (h : (name == "verbose".toList && value.isNone) = false) (verbose : Bool)
    (arguments : ScanArguments) (held : Held) :
    (arguments.withVerbose verbose).readLong held name value
      = (arguments.readLong held name value).map (readVerbose verbose) := by
  unfold readLong
  rw [settle_withVerbose]
  split
  · rename_i hname
    cases value with
    | none => simp [hname] at h
    | some value => rfl
  · split
    · cases value with
      | none => cases arguments.settle held <;> rfl
      | some value => rfl
    · cases ValueOption.ofName? name with
      | none => rfl
      | some option =>
        cases value with
        | none => cases arguments.settle held <;> rfl
        | some value =>
          cases arguments.settle held with
          | error cause => rfl
          | ok settled =>
            have hset := settled.setValue_withVerbose verbose value option
            cases hgiven : settled.setValue value option with
            | error cause =>
              rw [hgiven] at hset
              simp only [Except.map, orReply, bind, Except.bind, hgiven, hset]
            | ok given =>
              rw [hgiven] at hset
              simp only [Except.map, orReply, bind, Except.bind, hgiven, hset, readVerbose]

/-- Letters without the flag for more messages end the reading. -/
theorem readLetters_error {letters : List Char} (hne : letters ≠ [])
    (hquiet : letters.contains 'v' = false) (verbose : Bool) (arguments : ScanArguments)
    (held : Held) :
    ∃ reply, arguments.readLetters held letters = .error reply ∧
      (arguments.withVerbose verbose).readLetters held letters = .error reply := by
  obtain ⟨letter, rest, rfl⟩ := List.exists_cons_of_ne_nil hne
  have hletter : letter ≠ 'v' := by
    rintro rfl
    simp at hquiet
  rw [readLetters, readLetters, if_neg hletter, if_neg hletter]
  by_cases hhelp : letter = 'h'
  · rw [if_pos hhelp, if_pos hhelp, settle_withVerbose]
    cases arguments.settle held with
    | error cause => exact ⟨.misuse cause, rfl, rfl⟩
    | ok settled => exact ⟨.help .scan, rfl, rfl⟩
  · rw [if_neg hhelp, if_neg hhelp]
    exact ⟨.misuse .unknownArgument, rfl, rfl⟩

theorem Word.letters_ne_nil {text letters : List Char}
    (h : Word.ofText text = .letters letters) : letters ≠ [] := by
  unfold Word.ofText at h
  split at h
  · cases h
  · cases h
  · cases h
    exact List.cons_ne_nil _ _
  · cases h

theorem readOperands_withVerbose (verbose : Bool) (arguments : ScanArguments) (held : Held)
    (texts : List String) :
    (arguments.withVerbose verbose).readOperands held texts
      = (arguments.readOperands held texts).map (withVerbose verbose) := by
  induction texts generalizing arguments held with
  | nil =>
    rw [readOperands, readOperands, settle_withVerbose]
    cases arguments.settle held <;> rfl
  | cons text texts ih =>
    rw [readOperands, readOperands, readOperand_withVerbose]
    cases arguments.readOperand held text with
    | error reply => rfl
    | ok read => exact ih read.1 read.2

/-- Texts without the flag for more messages are read alike with the flag and without it. -/
theorem read_withVerbose {texts : List String} (hquiet : givesVerbose texts = false)
    (verbose : Bool) (arguments : ScanArguments) (held : Held) :
    (arguments.withVerbose verbose).read held texts
      = (arguments.read held texts).map (withVerbose verbose) := by
  induction texts generalizing arguments held with
  | nil =>
    rw [read, read, settle_withVerbose]
    cases arguments.settle held <;> rfl
  | cons text texts ih =>
    rw [givesVerbose] at hquiet
    cases hword : Word.ofText text.toList with
    | escape =>
      rw [read_escape hword, read_escape hword]
      exact arguments.readOperands_withVerbose verbose held texts
    | long name value =>
      simp only [hword, Bool.or_eq_false_iff] at hquiet
      have hname : (name == "verbose".toList && (value.map String.ofList).isNone) = false := by
        rw [Option.isNone_map]
        exact hquiet.1
      rw [read_long hword, read_long hword, readLong_withVerbose hname]
      cases arguments.readLong held name (value.map String.ofList) with
      | error reply => rfl
      | ok read => exact ih hquiet.2 read.1 read.2
    | letters letters =>
      simp only [hword, Bool.or_eq_false_iff] at hquiet
      obtain ⟨reply, hread, hverbose⟩ :=
        readLetters_error (Word.letters_ne_nil hword) hquiet.1 verbose arguments held
      rw [read_letters hword, read_letters hword, hread, hverbose]
      rfl
    | plain =>
      simp only [hword] at hquiet
      cases hheld : held.complete with
      | false =>
        obtain ⟨option, rfl⟩ := Held.of_not_complete hheld
        rw [read_value hword, read_value hword]
        exact ih hquiet arguments _
      | true =>
        rw [read_plain hword hheld, read_plain hword hheld, readOperand_withVerbose]
        cases arguments.readOperand held text with
        | error reply => rfl
        | ok read => exact ih hquiet read.1 read.2

theorem verbose_of_read {texts : List String} (hquiet : givesVerbose texts = false)
    {arguments given : ScanArguments} {held : Held}
    (h : arguments.read held texts = .ok given) : given.verbose = arguments.verbose := by
  have hsame := read_withVerbose hquiet arguments.verbose arguments held
  have hself : arguments.withVerbose arguments.verbose = arguments := rfl
  rw [hself, h, Except.map, Except.ok.injEq] at hsame
  have hverbose := congrArg ScanArguments.verbose hsame
  exact hverbose

/-! ## Settling earlier -/

theorem verbose_of_settle {arguments settled : ScanArguments} {held : Held}
    (h : arguments.settle held = .ok settled) :
    settled.verbose = arguments.verbose ∧
      ((∀ text, held ≠ .operand text) → settled.path = arguments.path) := by
  cases held with
  | nothing =>
    cases h
    exact ⟨rfl, fun _ => rfl⟩
  | value option value =>
    cases value with
    | none => cases h
    | some value =>
      cases option with
      | format =>
        rw [settle, setValue] at h
        split at h
        · cases h
        · split at h
          · cases h
            exact ⟨rfl, fun _ => rfl⟩
          · cases h
      | ignore =>
        cases h
        exact ⟨rfl, fun _ => rfl⟩
      | extension =>
        cases h
        exact ⟨rfl, fun _ => rfl⟩
  | operand text =>
    rw [settle] at h
    split at h
    · cases h
    · cases h
      exact ⟨rfl, fun hnone => absurd rfl (hnone text)⟩

/-- An operand that comes after what is held was settled. -/
theorem echoes_readOperand {arguments : ScanArguments} {held : Held}
    (hheld : held.complete = true) (text : String) :
    Echoes (arguments.readOperand held text) (do
      let settled ← orReply (arguments.settle held)
      settled.readOperand .nothing text) := by
  cases hsettle : arguments.settle held with
  | error cause =>
    rw [readOperand, hsettle]
    split
    · exact .misuse cause cause
    · exact .misuse .unknownArgument cause
  | ok settled =>
    have hafter : (do
          let settled ← orReply (.ok settled)
          settled.readOperand .nothing text)
        = settled.readOperand .nothing text := rfl
    rw [hafter, readOperand, readOperand, hsettle, settle]
    cases held with
    | nothing =>
      cases hsettle
      exact .same _
    | value option value =>
      have hpath := (verbose_of_settle hsettle).2 nofun
      have hwants : settled.wantsOperand .nothing
          = arguments.wantsOperand (.value option value) := by
        simp only [wantsOperand, hpath]
      rw [hwants]
      exact .same _
    | operand other =>
      rw [settle] at hsettle
      split at hsettle
      · cases hsettle
      · cases hsettle
        exact .misuse .unknownArgument .unknownArgument

theorem echoes_readLong (arguments : ScanArguments) (held : Held) (name : List Char)
    (value : Option String) :
    Echoes (arguments.readLong held name value) (do
      let settled ← orReply (arguments.settle held)
      settled.readLong .nothing name value) := by
  unfold readLong
  cases arguments.settle held with
  | error cause =>
    split
    · cases value with
      | none => exact .misuse cause cause
      | some value => exact .misuse .unexpectedValue cause
    · split
      · cases value with
        | none => exact .misuse cause cause
        | some value => exact .misuse .unexpectedValue cause
      · cases ValueOption.ofName? name with
        | none => exact .misuse .unknownArgument cause
        | some option => cases value <;> exact .misuse cause cause
  | ok settled =>
    split
    · cases value <;> exact .same _
    · split
      · cases value <;> exact .same _
      · cases ValueOption.ofName? name with
        | none => exact .same _
        | some option => cases value <;> exact .same _

theorem echoes_readLetters (arguments : ScanArguments) (held : Held) {letters : List Char}
    (hne : letters ≠ []) :
    Echoes (arguments.readLetters held letters) (do
      let settled ← orReply (arguments.settle held)
      settled.readLetters .nothing letters) := by
  obtain ⟨letter, rest, rfl⟩ := List.exists_cons_of_ne_nil hne
  simp only [readLetters]
  cases arguments.settle held with
  | error cause =>
    split
    · exact .misuse cause cause
    · split
      · exact .misuse cause cause
      · exact .misuse .unknownArgument cause
  | ok settled =>
    split
    · exact .same _
    · split <;> exact .same _

/-- What is held can be settled before the texts that follow are read. -/
theorem echoes_settle {arguments : ScanArguments} {held : Held}
    (hheld : held.complete = true) (texts : List String) :
    Echoes (arguments.read held texts) (do
      let settled ← orReply (arguments.settle held)
      settled.read .nothing texts) := by
  -- The first argument that is read settles what is held, or is a misuse as well.
  have honward {first : Except Reply (ScanArguments × Held)}
      {second : ScanArguments → Except Reply (ScanArguments × Held)}
      (h : Echoes first (orReply (arguments.settle held) >>= second))
      (rest : ScanArguments × Held → Except Reply ScanArguments) :
      Echoes (first >>= rest) (do
        let settled ← orReply (arguments.settle held)
        second settled >>= rest) := by
    have hbind := h.bind rest
    rwa [bind_assoc] at hbind
  have hend : Echoes (orReply (arguments.settle held)) (do
      let settled ← orReply (arguments.settle held)
      orReply (settled.settle .nothing)) := by
    cases arguments.settle held with
    | error cause => exact .misuse cause cause
    | ok settled => exact .same _
  cases texts with
  | nil => exact hend
  | cons text texts =>
    cases hword : Word.ofText text.toList with
    | escape =>
      simp only [read_escape hword]
      cases texts with
      | nil => exact hend
      | cons text texts =>
        simp only [readOperands]
        exact honward (echoes_readOperand hheld text) _
    | long name value =>
      simp only [read_long hword]
      exact honward (echoes_readLong arguments held name _) _
    | letters letters =>
      simp only [read_letters hword]
      exact honward (echoes_readLetters arguments held (Word.letters_ne_nil hword)) _
    | plain =>
      have hnothing : Held.nothing.complete = true := rfl
      simp only [read_plain hword hheld, read_plain hword hnothing]
      exact honward (echoes_readOperand hheld text) _

/-! ## The place of the flag -/

/-- An argument that follows the texts is read by itself: there is no `--` among them, and no
option at their end waits for its value. -/
def takesFlag : List String → Bool
  | [] => true
  | text :: texts =>
    match Word.ofText text.toList with
    | .escape => false
    | .long name none =>
      if texts.isEmpty then (ValueOption.ofName? name).isNone else takesFlag texts
    | _ => takesFlag texts

/-- The flag settles what is held. -/
theorem read_verbose {arguments : ScanArguments} (hquiet : arguments.verbose = false)
    (held : Held) (texts : List String) :
    arguments.read held ("-v" :: texts) = (do
      let settled ← orReply (arguments.settle held)
      (settled.withVerbose true).read .nothing texts) := by
  have hword : Word.ofText "-v".toList = .letters ['v'] := by decide
  rw [read_letters hword, readLetters, if_pos rfl]
  cases hsettle : arguments.settle held with
  | error cause => rfl
  | ok settled =>
    have hverbose : settled.setVerbose = .ok (settled.withVerbose true) := by
      rw [setVerbose, (verbose_of_settle hsettle).1, hquiet, if_neg Bool.false_ne_true]
      rfl
    simp only [orReply, bind, Except.bind, hverbose, readLetters]

/-- The flag is read in front of texts without it. -/
theorem echoes_read_verbose {arguments : ScanArguments} {held : Held} {texts : List String}
    (hverbose : arguments.verbose = false) (hheld : held.complete = true)
    (hquiet : givesVerbose texts = false) :
    Echoes (arguments.read held ("-v" :: texts))
      ((arguments.read held texts).map (withVerbose true)) := by
  have hsettles : Echoes (arguments.read held texts) _ := echoes_settle hheld texts
  have hsettled := hsettles.map (withVerbose true)
  rw [read_verbose hverbose]
  cases hsettle : arguments.settle held with
  | error cause =>
    rw [hsettle] at hsettled
    exact hsettled.symm
  | ok settled =>
    rw [hsettle] at hsettled
    have hread := read_withVerbose hquiet true settled .nothing
    simp only [orReply, bind, Except.bind, hread] at hsettled ⊢
    exact hsettled.symm

theorem readOperand_ok {arguments : ScanArguments} {held : Held} {text : String}
    {read : ScanArguments × Held} (h : arguments.readOperand held text = .ok read) :
    read.1.verbose = arguments.verbose ∧ read.2.complete = true := by
  rw [readOperand] at h
  split at h
  · cases hsettle : arguments.settle held with
    | error cause =>
      rw [hsettle] at h
      cases h
    | ok settled =>
      rw [hsettle] at h
      cases h
      exact ⟨(verbose_of_settle hsettle).1, rfl⟩
  · cases h

theorem readLong_ok {arguments : ScanArguments} {held : Held} {name : List Char}
    {value : Option String} {read : ScanArguments × Held}
    (hquiet : (name == "verbose".toList && value.isNone) = false)
    (h : arguments.readLong held name value = .ok read) :
    read.1.verbose = arguments.verbose ∧
      ((value.isNone = true → (ValueOption.ofName? name).isNone = true) →
        read.2.complete = true) := by
  unfold readLong at h
  split at h
  · rename_i hname
    cases value with
    | none => simp [hname] at hquiet
    | some value => cases h
  · split at h
    · cases value with
      | none => cases hsettle : arguments.settle held <;> rw [hsettle] at h <;> cases h
      | some value => cases h
    · cases hoption : ValueOption.ofName? name with
      | none =>
        rw [hoption] at h
        cases h
      | some option =>
        rw [hoption] at h
        cases hsettle : arguments.settle held with
        | error cause =>
          rw [hsettle] at h
          cases value <;> cases h
        | ok settled =>
          rw [hsettle] at h
          have hsettled := (verbose_of_settle hsettle).1
          cases value with
          | none =>
            cases h
            exact ⟨hsettled, fun hnone => by cases hnone rfl⟩
          | some value =>
            cases hgiven : settled.setValue value option with
            | error cause =>
              simp only [orReply, bind, Except.bind, hgiven] at h
              cases h
            | ok given =>
              simp only [orReply, bind, Except.bind, hgiven] at h
              cases h
              have hset : settled.settle (.value option (some value)) = .ok given := hgiven
              exact ⟨(verbose_of_settle hset).1.trans hsettled, fun _ => rfl⟩

/-- Wherever the flag can stand among texts without it, it turns on more messages; where these
are misused without it, they are with it. -/
theorem echoes_insert_verbose {front back : List String} (hfront : takesFlag front = true)
    (hquiet : givesVerbose (front ++ back) = false) {arguments : ScanArguments} {held : Held}
    (hverbose : arguments.verbose = false) (hheld : front = [] → held.complete = true) :
    Echoes (arguments.read held (front ++ "-v" :: back))
      ((arguments.read held (front ++ back)).map (withVerbose true)) := by
  induction front generalizing arguments held with
  | nil => exact echoes_read_verbose hverbose (hheld rfl) hquiet
  | cons text front ih =>
    rw [List.cons_append, givesVerbose] at hquiet
    rw [takesFlag] at hfront
    rw [List.cons_append, List.cons_append]
    cases hword : Word.ofText text.toList with
    | escape =>
      simp only [hword] at hfront
      cases hfront
    | long name value =>
      simp only [hword, Bool.or_eq_false_iff] at hquiet hfront
      have hname : (name == "verbose".toList && (value.map String.ofList).isNone) = false := by
        rw [Option.isNone_map]
        exact hquiet.1
      rw [read_long hword, read_long hword]
      cases hread : arguments.readLong held name (value.map String.ofList) with
      | error reply => exact .same _
      | ok read =>
        obtain ⟨hsame, hcomplete⟩ := readLong_ok hname hread
        have hrest : takesFlag front = true := by
          cases value with
          | some value => exact hfront
          | none =>
            cases front with
            | nil => rfl
            | cons next front => exact hfront
        refine ih hrest hquiet.2 (hsame.trans hverbose) ?_
        rintro rfl
        apply hcomplete
        intro hnone
        cases value with
        | none => exact hfront
        | some value => cases hnone
    | letters letters =>
      simp only [hword, Bool.or_eq_false_iff] at hquiet
      obtain ⟨reply, hread, -⟩ :=
        readLetters_error (Word.letters_ne_nil hword) hquiet.1 true arguments held
      rw [read_letters hword, read_letters hword, hread]
      exact .same _
    | plain =>
      simp only [hword] at hquiet hfront
      cases hcomplete : held.complete with
      | false =>
        obtain ⟨option, rfl⟩ := Held.of_not_complete hcomplete
        rw [read_value hword, read_value hword]
        exact ih hfront hquiet hverbose fun _ => rfl
      | true =>
        rw [read_plain hword hcomplete, read_plain hword hcomplete]
        cases hread : arguments.readOperand held text with
        | error reply => exact .same _
        | ok read =>
          obtain ⟨hsame, hnext⟩ := readOperand_ok hread
          exact ih hfront hquiet (hsame.trans hverbose) fun _ => hnext

end FeatureDigest.ScanArguments
