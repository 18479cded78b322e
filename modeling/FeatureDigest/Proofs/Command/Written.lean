import FeatureDigest.Proofs.Command.Reading

/-!
# Written arguments

The arguments of a scan can be written in many ways: options and flags come in any order, and
some can be spelled in two ways.  However they are written, they are read back
(`ofArguments_line`).

What is read is settled one argument late, so reading is compared with telling the scan one thing
after the other (`read_line`).  What may be told once is counted along the way (`Counted`); it is
never accepted a second time, wherever it stands before `--`.
-/

set_option autoImplicit false

namespace FeatureDigest

/-- How often a word gives the format. -/
def Word.formats : Word → Nat
  | .long name _ => if name = "format".toList then 1 else 0
  | _ => 0

/-- How often a word gives the flag for more messages. -/
def Word.verboses : Word → Nat
  | .long name _ => if name = "verbose".toList then 1 else 0
  | .letters flags => flags.count 'v'
  | _ => 0

namespace ScanArguments

/-! ## Ways to write arguments -/

/-- One thing that a scan is told, and how it is written. -/
inductive Telling
  | ignore (pattern : String)
  | extension (name : String)
  /-- The format, after `=` or as an argument of its own. -/
  | format (value : Format) (attached : Bool)
  /-- The flag for more messages, as a letter or by its name. -/
  | verbose (short : Bool)
  deriving DecidableEq, Repr

namespace Telling

/-- The arguments that tell it. -/
def words : Telling → List String
  | .ignore pattern => ["--ignore=" ++ pattern]
  | .extension name => ["--extension=" ++ name]
  | .format value true => ["--format=" ++ value.name]
  | .format value false => ["--format", value.name]
  | .verbose true => ["-v"]
  | .verbose false => ["--verbose"]

/-- The pattern that is to be ignored. -/
def ignore? : Telling → Option String
  | .ignore pattern => some pattern
  | _ => none

/-- The extension of feature files. -/
def extension? : Telling → Option String
  | .extension name => some name
  | _ => none

/-- The format of the report. -/
def format? : Telling → Option Format
  | .format value _ => some value
  | _ => none

/-- It asks for more messages. -/
def isVerbose : Telling → Bool
  | .verbose _ => true
  | _ => false

end Telling

/-- The arguments that give the folder, if there is one. -/
def operands : Option Path → List String
  | none => []
  | some path => ["--", path.text]

/-- The arguments that tell some things and then give the folder. -/
def line (tellings : List Telling) (path : Option Path) : List String :=
  tellings.flatMap Telling.words ++ operands path

/-- Some things tell a scan all of its arguments but the folder, in any order as long as ignores
and extensions each keep theirs. -/
structure Tells (tellings : List Telling) (arguments : ScanArguments) : Prop where
  ignores : tellings.filterMap Telling.ignore? = arguments.ignores
  extensions : tellings.filterMap Telling.extension? = arguments.extensions
  format : tellings.filterMap Telling.format? = arguments.format.toList
  verbose : tellings.countP Telling.isVerbose = arguments.verbose.toNat

/-! ## Telling one thing after the other -/

/-- The arguments with one thing more. -/
def accept (arguments : ScanArguments) : Telling → Except Misuse ScanArguments
  | .ignore pattern => arguments.setValue pattern .ignore
  | .extension name => arguments.setValue name .extension
  | .format value _ => arguments.setValue value.name .format
  | .verbose _ => arguments.setVerbose

/-- The arguments with some things more. -/
def acceptAll (arguments : ScanArguments) (tellings : List Telling) :
    Except Misuse ScanArguments :=
  tellings.foldlM accept arguments

theorem acceptAll_cons (arguments : ScanArguments) (telling : Telling)
    (tellings : List Telling) :
    arguments.acceptAll (telling :: tellings) = (do
      let given ← arguments.accept telling
      given.acceptAll tellings) := List.foldlM_cons

theorem setFormat_eq (arguments : ScanArguments) (format : Format) :
    arguments.setValue format.name .format
      = if arguments.format.isSome then .error .repeated
        else .ok { arguments with format := some format } := by
  rw [setValue, Format.ofName?_name]

theorem path_of_accept {arguments given : ScanArguments} {telling : Telling}
    (h : arguments.accept telling = .ok given) : given.path = arguments.path := by
  cases telling with
  | ignore pattern => cases h; rfl
  | extension name => cases h; rfl
  | format value attached =>
    rw [accept, setFormat_eq] at h
    split at h
    · cases h
    · cases h; rfl
  | verbose short =>
    rw [accept, setVerbose] at h
    split at h
    · cases h
    · cases h; rfl

/-- Only what was told before is refused. -/
theorem eq_repeated_of_accept {arguments : ScanArguments} {telling : Telling} {cause : Misuse}
    (h : arguments.accept telling = .error cause) : cause = .repeated := by
  cases telling with
  | ignore pattern => cases h
  | extension name => cases h
  | format value attached =>
    rw [accept, setFormat_eq] at h
    split at h
    · cases h; rfl
    · cases h
  | verbose short =>
    rw [accept, setVerbose] at h
    split at h
    · cases h; rfl
    · cases h

theorem eq_repeated_of_acceptAll {arguments : ScanArguments} {tellings : List Telling}
    {cause : Misuse} (h : arguments.acceptAll tellings = .error cause) : cause = .repeated := by
  induction tellings generalizing arguments with
  | nil => cases h
  | cons telling tellings ih =>
    rw [acceptAll_cons] at h
    cases haccept : arguments.accept telling with
    | error found =>
      rw [haccept] at h
      cases h
      exact eq_repeated_of_accept haccept
    | ok given =>
      rw [haccept] at h
      exact ih h

/-- Some things more complete the arguments. -/
structure Completes (arguments : ScanArguments) (tellings : List Telling)
    (given : ScanArguments) : Prop where
  path : arguments.path = given.path
  ignores : arguments.ignores ++ tellings.filterMap Telling.ignore? = given.ignores
  extensions : arguments.extensions ++ tellings.filterMap Telling.extension? = given.extensions
  format : arguments.format.toList ++ tellings.filterMap Telling.format? = given.format.toList
  verbose : arguments.verbose.toNat + tellings.countP Telling.isVerbose = given.verbose.toNat

theorem Completes.eq_of_nil {arguments given : ScanArguments}
    (h : Completes arguments [] given) : arguments = given := by
  obtain ⟨path, format, ignores, extensions, verbose⟩ := arguments
  obtain ⟨path', format', ignores', extensions', verbose'⟩ := given
  obtain ⟨hpath, hignores, hextensions, hformat, hverbose⟩ := h
  simp only [List.filterMap_nil, List.append_nil, List.countP_nil, Nat.add_zero] at *
  have hsameFormat : format = format' := by
    rw [← Option.head?_toList (o := format), hformat, Option.head?_toList]
  have hsameVerbose : verbose = verbose' := by
    cases verbose <;> cases verbose' <;> first | rfl | cases hverbose
  rw [hpath, hignores, hextensions, hsameFormat, hsameVerbose]

/-- The next thing is accepted. -/
theorem Completes.accept {arguments given : ScanArguments} {telling : Telling}
    {tellings : List Telling} (h : Completes arguments (telling :: tellings) given) :
    ∃ next, arguments.accept telling = .ok next ∧ Completes next tellings given := by
  obtain ⟨path, ignores, extensions, format, verbose⟩ := h
  cases telling with
  | ignore pattern =>
    refine ⟨_, rfl, path, ?_, extensions, format, verbose⟩
    rw [← ignores, List.append_assoc]
    rfl
  | extension name =>
    refine ⟨_, rfl, path, ignores, ?_, format, verbose⟩
    rw [← extensions, List.append_assoc]
    rfl
  | format value attached =>
    have hfresh : arguments.format = none := by
      cases hformat : arguments.format with
      | none => rfl
      | some other =>
        have hlength := congrArg List.length format
        rw [hformat, Option.length_toList] at hlength
        simp only [List.length_append, Option.toList_some, List.filterMap_cons, Telling.format?,
          List.length_cons] at hlength
        split at hlength <;> omega
    rw [hfresh] at format
    refine ⟨{ arguments with format := some value }, ?_, path, ignores, extensions, format,
      verbose⟩
    rw [ScanArguments.accept, setFormat_eq, hfresh]
    rfl
  | verbose short =>
    rw [List.countP_cons] at verbose
    have hfresh : arguments.verbose = false := by
      cases hverbose : arguments.verbose with
      | false => rfl
      | true =>
        have hle := given.verbose.toNat_le
        rw [hverbose] at verbose
        simp only [Telling.isVerbose, if_true, Bool.toNat_true] at verbose
        omega
    refine ⟨{ arguments with verbose := true }, ?_, path, ignores, extensions, format, ?_⟩
    · rw [ScanArguments.accept, setVerbose, hfresh]
      rfl
    · rw [← verbose, hfresh]
      exact Nat.add_comm 1 _ |>.trans (Nat.zero_add _).symm

theorem Completes.acceptAll {arguments given : ScanArguments} {tellings : List Telling}
    (h : Completes arguments tellings given) : arguments.acceptAll tellings = .ok given := by
  induction tellings generalizing arguments with
  | nil =>
    rw [h.eq_of_nil]
    rfl
  | cons telling tellings ih =>
    obtain ⟨next, haccept, hnext⟩ := h.accept
    rw [acceptAll_cons, haccept]
    exact ih hnext

theorem completes_of_accept {arguments next given : ScanArguments} {telling : Telling}
    {tellings : List Telling} (haccept : arguments.accept telling = .ok next)
    (h : Completes next tellings given) : Completes arguments (telling :: tellings) given := by
  obtain ⟨path, ignores, extensions, format, verbose⟩ := h
  cases telling with
  | ignore pattern =>
    cases haccept
    refine ⟨path, ?_, extensions, format, verbose⟩
    rw [← ignores, List.append_assoc]
    rfl
  | extension name =>
    cases haccept
    refine ⟨path, ignores, ?_, format, verbose⟩
    rw [← extensions, List.append_assoc]
    rfl
  | format value attached =>
    rw [ScanArguments.accept, setFormat_eq] at haccept
    split at haccept
    · cases haccept
    · rename_i hfresh
      cases haccept
      refine ⟨path, ignores, extensions, ?_, verbose⟩
      rw [Option.not_isSome_iff_eq_none.1 hfresh, ← format]
      rfl
  | verbose short =>
    rw [ScanArguments.accept, setVerbose] at haccept
    split at haccept
    · cases haccept
    · rename_i hfresh
      cases haccept
      refine ⟨path, ignores, extensions, format, ?_⟩
      rw [Bool.eq_false_iff.2 hfresh, ← verbose, List.countP_cons]
      exact (Nat.zero_add _).trans (Nat.add_comm _ 1)

/-- Exactly what some things complete is accepted. -/
theorem acceptAll_eq_ok_iff {arguments given : ScanArguments} {tellings : List Telling} :
    arguments.acceptAll tellings = .ok given ↔ Completes arguments tellings given := by
  refine ⟨fun h => ?_, Completes.acceptAll⟩
  induction tellings generalizing arguments with
  | nil =>
    cases h
    exact ⟨rfl, List.append_nil _, List.append_nil _, List.append_nil _, rfl⟩
  | cons telling tellings ih =>
    rw [acceptAll_cons] at h
    cases haccept : arguments.accept telling with
    | error cause =>
      rw [haccept] at h
      cases h
    | ok next =>
      rw [haccept] at h
      exact completes_of_accept haccept (ih h)

/-- The format is told twice, or the flag for more messages is. -/
def Repeats (tellings : List Telling) : Prop :=
  1 < (tellings.filterMap Telling.format?).length ∨ 1 < tellings.countP Telling.isVerbose

theorem Completes.not_repeats {arguments given : ScanArguments} {tellings : List Telling}
    (h : Completes arguments tellings given) : ¬ Repeats tellings := by
  have hformat := congrArg List.length h.format
  have hverbose := h.verbose
  have hle := given.verbose.toNat_le
  rw [List.length_append, Option.length_toList, Option.length_toList] at hformat
  rintro (htwice | htwice)
  · split at hformat <;> split at hformat <;> omega
  · omega

/-- What is told twice is refused. -/
theorem acceptAll_of_repeats {tellings : List Telling} (h : Repeats tellings)
    (arguments : ScanArguments) : arguments.acceptAll tellings = .error .repeated := by
  cases haccept : arguments.acceptAll tellings with
  | error cause => rw [eq_repeated_of_acceptAll haccept]
  | ok given => exact absurd h (acceptAll_eq_ok_iff.1 haccept).not_repeats

/-! ## Reading what was written -/

/-- The folder is held, if there is one. -/
def Held.ofPath : Option Path → Held
  | none => .nothing
  | some path => .operand path.text

/-- An option with its value, or nothing, is held. -/
def Held.isValue : Held → Bool
  | .nothing => true
  | .value _ (some _) => true
  | _ => false

theorem Held.ne_operand {held : Held} (h : held.isValue = true) (text : String) :
    held ≠ .operand text := by
  rintro rfl
  cases h

/-- The arguments with one thing more, which is held when its value is an argument of its own. -/
def hold (arguments : ScanArguments) (telling : Telling) :
    Except Misuse (ScanArguments × Held) :=
  match telling with
  | .format value false => .ok (arguments, .value .format (some value.name))
  | _ => (arguments.accept telling).map fun given => (given, .nothing)

/-- What is held settles as what was told. -/
theorem hold_cases (arguments : ScanArguments) (telling : Telling) :
    (∃ cause, arguments.hold telling = .error cause ∧
      arguments.accept telling = .error cause) ∨
    ∃ next held, arguments.hold telling = .ok (next, held) ∧
      next.settle held = arguments.accept telling ∧
      next.path = arguments.path ∧ held.isValue = true := by
  unfold hold
  split
  · exact Or.inr ⟨_, _, rfl, rfl, rfl, rfl⟩
  · cases haccept : arguments.accept telling with
    | error cause => exact Or.inl ⟨cause, rfl, rfl⟩
    | ok given => exact Or.inr ⟨given, .nothing, rfl, rfl, path_of_accept haccept, rfl⟩

/-- An option with its value after `=` settles what is held. -/
theorem read_assigned {text value : String} {option : ValueOption}
    (hword : Word.ofText text.toList = .long option.name.toList (some value.toList))
    (arguments : ScanArguments) (held : Held) (texts : List String) :
    arguments.read held (text :: texts) = (do
      let settled ← orReply (arguments.settle held)
      let given ← orReply (settled.setValue value option)
      given.read .nothing texts) := by
  have hlong : arguments.readLong held option.name.toList (some value) = (do
      let settled ← orReply (arguments.settle held)
      let given ← orReply (settled.setValue value option)
      .ok (given, .nothing)) := by
    cases option <;> rfl
  rw [read_long hword, Option.map_some, String.ofList_toList, hlong]
  simp only [bind_assoc]
  rfl

/-- The format as an argument of its own is held. -/
theorem read_detached (value : Format) (arguments : ScanArguments) (held : Held)
    (texts : List String) :
    arguments.read held ("--format" :: value.name :: texts) = (do
      let settled ← orReply (arguments.settle held)
      settled.read (.value .format (some value.name)) texts) := by
  have hword : Word.ofText "--format".toList = .long ValueOption.format.name.toList none := rfl
  have hlong : arguments.readLong held ValueOption.format.name.toList none = (do
      let settled ← orReply (arguments.settle held)
      .ok (settled, .value .format none)) := rfl
  have hplain : Word.ofText value.name.toList = .plain := by cases value <;> rfl
  have hvalue (settled : ScanArguments) :
      settled.read (.value .format none) (value.name :: texts)
        = settled.read (.value .format (some value.name)) texts := read_value hplain _ _ _
  rw [read_long hword, Option.map_none, hlong]
  simp only [bind_assoc, ← hvalue]
  rfl

/-- The flag for more messages settles what is held. -/
theorem read_flag (short : Bool) (arguments : ScanArguments) (held : Held)
    (texts : List String) :
    arguments.read held ((Telling.verbose short).words ++ texts) = (do
      let settled ← orReply (arguments.settle held)
      let given ← orReply settled.setVerbose
      given.read .nothing texts) := by
  cases short with
  | true =>
    have hword : Word.ofText "-v".toList = .letters ['v'] := rfl
    rw [Telling.words, List.singleton_append, read_letters hword, readLetters, if_pos rfl]
    simp only [bind_assoc]
    rfl
  | false =>
    have hword : Word.ofText "--verbose".toList = .long "verbose".toList none := rfl
    rw [Telling.words, List.singleton_append, read_long hword, Option.map_none, readLong,
      if_pos rfl]
    simp only [bind_assoc]
    rfl

/-- The arguments that tell something settle what is held. -/
theorem read_words (arguments : ScanArguments) (held : Held) (telling : Telling)
    (texts : List String) :
    arguments.read held (telling.words ++ texts) = (do
      let settled ← orReply (arguments.settle held)
      let (next, held) ← orReply (settled.hold telling)
      next.read held texts) := by
  have hheld (outcome : Except Misuse ScanArguments) :
      (do
        let (next, held) ← orReply (outcome.map fun given => (given, Held.nothing))
        next.read held texts) = (do
          let given ← orReply outcome
          given.read .nothing texts) := by
    cases outcome <;> rfl
  cases telling with
  | ignore pattern =>
    have hword : Word.ofText ("--ignore=" ++ pattern).toList
        = .long ValueOption.ignore.name.toList (some pattern.toList) := by
      rw [String.toList_append]
      rfl
    simp only [hold, hheld]
    exact read_assigned hword arguments held texts
  | extension name =>
    have hword : Word.ofText ("--extension=" ++ name).toList
        = .long ValueOption.extension.name.toList (some name.toList) := by
      rw [String.toList_append]
      rfl
    simp only [hold, hheld]
    exact read_assigned hword arguments held texts
  | format value attached =>
    cases attached with
    | true =>
      have hword : Word.ofText ("--format=" ++ value.name).toList
          = .long ValueOption.format.name.toList (some value.name.toList) := by
        rw [String.toList_append]
        rfl
      simp only [hold, hheld]
      exact read_assigned hword arguments held texts
    | false =>
      exact read_detached value arguments held texts
  | verbose short =>
    simp only [hold, hheld]
    exact read_flag short arguments held texts

/-- The folder settles what is held. -/
theorem read_operands (path : Option Path) {arguments : ScanArguments} {held : Held}
    (hpath : arguments.path = none) (hheld : held.isValue = true) :
    arguments.read held (operands path) = orReply (do
      let settled ← arguments.settle held
      settled.settle (Held.ofPath path)) := by
  cases path with
  | none =>
    have hend (outcome : Except Misuse ScanArguments) :
        (do
          let settled ← outcome
          settled.settle .nothing) = outcome := by
      cases outcome <;> rfl
    exact (congrArg orReply (hend _)).symm
  | some path =>
    have hwants : arguments.wantsOperand held = true := by
      cases held with
      | operand text => cases hheld
      | _ => exact Option.isNone_iff_eq_none.2 hpath
    have hescape : Word.ofText "--".toList = .escape := rfl
    rw [operands, read_escape hescape, readOperands, readOperand, if_pos hwants]
    cases arguments.settle held <;> rfl

/-- Reading what was written tells the scan one thing after the other, and then the folder. -/
theorem read_line (tellings : List Telling) (path : Option Path) {arguments : ScanArguments}
    {held : Held} (hpath : arguments.path = none) (hheld : held.isValue = true) :
    arguments.read held (line tellings path) = orReply (do
      let settled ← arguments.settle held
      let given ← settled.acceptAll tellings
      given.settle (Held.ofPath path)) := by
  induction tellings generalizing arguments held with
  | nil => exact read_operands path hpath hheld
  | cons telling tellings ih =>
    have hsplit : line (telling :: tellings) path = telling.words ++ line tellings path := by
      rw [line, line, List.flatMap_cons, List.append_assoc]
    rw [hsplit, read_words]
    cases hsettle : arguments.settle held with
    | error cause => rfl
    | ok settled =>
      have hsettled : settled.path = none :=
        ((verbose_of_settle hsettle).2 (Held.ne_operand hheld)).trans hpath
      simp only [acceptAll_cons]
      rcases settled.hold_cases telling with
        ⟨cause, hhold, haccept⟩ | ⟨next, held, hhold, haccept, hnext, hvalue⟩
      · simp only [orReply, bind, Except.bind, hhold, haccept]
      · have hmore := ih (hnext.trans hsettled) hvalue
        simp only [bind, Except.bind] at hmore
        simp only [orReply, bind, Except.bind, hhold, hmore, haccept]
        cases settled.accept telling <;> rfl

/-! ## What is given once -/

/-- How often the words of the arguments before any `--` give something. -/
def timesGiven (times : Word → Nat) : List String → Nat
  | [] => 0
  | text :: texts =>
    match Word.ofText text.toList with
    | .escape => 0
    | word => times word + timesGiven times texts

/-- How often what is held gives the format. -/
def Held.formats : Held → Nat
  | .value .format _ => 1
  | _ => 0

/-- So often the format and the flag for more messages were given. -/
structure Counted (formats verboses : Nat) (arguments : ScanArguments) (held : Held) :
    Prop where
  formats : arguments.format.toList.length + held.formats = formats
  verboses : arguments.verbose.toNat = verboses

theorem exists_of_bind {ε α β : Type} {outcome : Except ε α} {next : α → Except ε β}
    {result : β} (h : outcome >>= next = .ok result) :
    ∃ value, outcome = .ok value ∧ next value = .ok result := by
  cases outcome with
  | error cause => cases h
  | ok value => exact ⟨value, rfl, h⟩

theorem of_orReply {α : Type} {outcome : Except Misuse α} {value : α}
    (h : orReply outcome = .ok value) : outcome = .ok value := by
  cases outcome with
  | error cause => cases h
  | ok found =>
    cases h
    rfl

theorem ValueOption.name_of_ofName? {name : List Char} {option : ValueOption}
    (h : ValueOption.ofName? name = some option) : option.name.toList = name :=
  eq_of_beq (List.find?_some (p := fun option : ValueOption => option.name.toList == name) h)

namespace Counted

variable {formats verboses : Nat} {arguments settled given : ScanArguments}
variable {held : Held}

theorem setValue {option : ValueOption} {waiting : Option String} {value : String}
    (h : Counted formats verboses arguments (.value option waiting))
    (hset : arguments.setValue value option = .ok given) :
    Counted formats verboses given .nothing := by
  obtain ⟨hformats, hverboses⟩ := h
  cases option with
  | format =>
    rw [ScanArguments.setValue] at hset
    split at hset
    · cases hset
    · rename_i hfresh
      split at hset
      · cases hset
        rw [Option.not_isSome_iff_eq_none.1 hfresh] at hformats
        exact ⟨hformats, hverboses⟩
      · cases hset
  | ignore =>
    cases hset
    exact ⟨hformats, hverboses⟩
  | extension =>
    cases hset
    exact ⟨hformats, hverboses⟩

theorem settle (h : Counted formats verboses arguments held)
    (hsettle : arguments.settle held = .ok settled) :
    Counted formats verboses settled .nothing := by
  cases held with
  | nothing =>
    cases hsettle
    exact h
  | value option value =>
    cases value with
    | none => cases hsettle
    | some value => exact h.setValue hsettle
  | operand text =>
    rw [ScanArguments.settle] at hsettle
    split at hsettle
    · cases hsettle
    · cases hsettle
      exact ⟨h.formats, h.verboses⟩

theorem setVerbose (h : Counted formats verboses arguments .nothing)
    (hset : arguments.setVerbose = .ok given) :
    Counted formats (verboses + 1) given .nothing := by
  rw [ScanArguments.setVerbose] at hset
  split at hset
  · cases hset
  · rename_i hfresh
    cases hset
    have hverboses := h.verboses
    rw [Bool.eq_false_iff.2 hfresh] at hverboses
    exact ⟨h.formats, congrArg (· + 1) hverboses⟩

theorem readLetters {letters : List Char} {read : ScanArguments × Held}
    (h : Counted formats verboses arguments held)
    (hread : arguments.readLetters held letters = .ok read) :
    Counted formats (verboses + letters.count 'v') read.1 read.2 := by
  induction letters generalizing arguments held verboses with
  | nil =>
    cases hread
    exact h
  | cons letter letters ih =>
    rw [ScanArguments.readLetters] at hread
    split at hread
    · rename_i hletter
      obtain ⟨settled, hsettle, hread⟩ := exists_of_bind hread
      obtain ⟨verbose, hverbose, hread⟩ := exists_of_bind hread
      have hnext := (h.settle (of_orReply hsettle)).setVerbose (of_orReply hverbose)
      have hmore := ih hnext hread
      rw [hletter, List.count_cons_self]
      rwa [Nat.add_assoc, Nat.add_comm 1] at hmore
    · split at hread
      · obtain ⟨settled, hsettle, hread⟩ := exists_of_bind hread
        cases hread
      · cases hread

theorem readLong {name : List Char} {value : Option String} {read : ScanArguments × Held}
    (h : Counted formats verboses arguments held)
    (hread : arguments.readLong held name value = .ok read) :
    Counted (formats + (Word.long name none).formats) (verboses + (Word.long name none).verboses)
      read.1 read.2 := by
  unfold ScanArguments.readLong at hread
  split at hread
  · rename_i hname
    cases value with
    | some value => cases hread
    | none =>
      obtain ⟨settled, hsettle, hread⟩ := exists_of_bind hread
      obtain ⟨verbose, hverbose, hread⟩ := exists_of_bind hread
      cases hread
      rw [hname]
      exact (h.settle (of_orReply hsettle)).setVerbose (of_orReply hverbose)
  · rename_i hname
    split at hread
    · cases value with
      | some value => cases hread
      | none =>
        obtain ⟨settled, hsettle, hread⟩ := exists_of_bind hread
        cases hread
    · cases hoption : ValueOption.ofName? name with
      | none =>
        rw [hoption] at hread
        cases hread
      | some option =>
        rw [hoption] at hread
        have hwaits (settled : ScanArguments)
            (hsettled : Counted formats verboses settled .nothing) :
            Counted (formats + (Word.long name none).formats)
              (verboses + (Word.long name none).verboses) settled (.value option none) := by
          rw [← ValueOption.name_of_ofName? hoption]
          cases option with
          | format => exact ⟨congrArg (· + 1) hsettled.formats, hsettled.verboses⟩
          | ignore => exact ⟨hsettled.formats, hsettled.verboses⟩
          | extension => exact ⟨hsettled.formats, hsettled.verboses⟩
        cases value with
        | none =>
          obtain ⟨settled, hsettle, hread⟩ := exists_of_bind hread
          cases hread
          exact hwaits settled (h.settle (of_orReply hsettle))
        | some value =>
          obtain ⟨settled, hsettle, hread⟩ := exists_of_bind hread
          obtain ⟨given, hgiven, hread⟩ := exists_of_bind hread
          cases hread
          exact (hwaits settled (h.settle (of_orReply hsettle))).setValue (of_orReply hgiven)

theorem readOperand {text : String} {read : ScanArguments × Held}
    (h : Counted formats verboses arguments held)
    (hread : arguments.readOperand held text = .ok read) :
    Counted formats verboses read.1 read.2 := by
  rw [ScanArguments.readOperand] at hread
  split at hread
  · obtain ⟨settled, hsettle, hread⟩ := exists_of_bind hread
    cases hread
    have hsettled := h.settle (of_orReply hsettle)
    exact ⟨hsettled.formats, hsettled.verboses⟩
  · cases hread

theorem readOperands {texts : List String} (h : Counted formats verboses arguments held)
    (hread : arguments.readOperands held texts = .ok given) :
    Counted formats verboses given .nothing := by
  induction texts generalizing arguments held with
  | nil => exact h.settle (of_orReply hread)
  | cons text texts ih =>
    rw [ScanArguments.readOperands] at hread
    obtain ⟨read, hfirst, hread⟩ := exists_of_bind hread
    exact ih (h.readOperand hfirst) hread

/-- Whatever the arguments are, what is given among them is counted. -/
theorem read {texts : List String} (h : Counted formats verboses arguments held)
    (hread : arguments.read held texts = .ok given) :
    Counted (formats + timesGiven Word.formats texts) (verboses + timesGiven Word.verboses texts)
      given .nothing := by
  induction texts generalizing arguments held formats verboses with
  | nil => exact h.settle (of_orReply hread)
  | cons text texts ih =>
    simp only [timesGiven]
    cases hword : Word.ofText text.toList with
    | escape =>
      rw [read_escape hword] at hread
      exact h.readOperands hread
    | long name value =>
      rw [read_long hword] at hread
      obtain ⟨next, hfirst, hread⟩ := exists_of_bind hread
      have hmore := ih (h.readLong hfirst) hread
      rw [Nat.add_assoc, Nat.add_assoc] at hmore
      exact hmore
    | letters letters =>
      rw [read_letters hword] at hread
      obtain ⟨next, hfirst, hread⟩ := exists_of_bind hread
      have hmore := ih (h.readLetters hfirst) hread
      rw [Nat.add_assoc] at hmore
      simp only [Word.formats, Word.verboses, Nat.zero_add]
      exact hmore
    | plain =>
      simp only [Word.formats, Word.verboses, Nat.zero_add]
      cases hheld : held.complete with
      | false =>
        obtain ⟨option, rfl⟩ := Held.of_not_complete hheld
        rw [read_value hword] at hread
        have hvalue : Counted formats verboses arguments (.value option (some text)) := by
          cases option <;> exact ⟨h.formats, h.verboses⟩
        exact ih hvalue hread
      | true =>
        rw [read_plain hword hheld] at hread
        obtain ⟨next, hfirst, hread⟩ := exists_of_bind hread
        exact ih (h.readOperand hfirst) hread

end Counted

/-- Arguments before any `--` give the format a second time, or the flag for more messages. -/
def GivesAgain (texts : List String) : Prop :=
  1 < timesGiven Word.formats texts ∨ 1 < timesGiven Word.verboses texts

theorem not_givesAgain_of_read {texts : List String} {given : ScanArguments}
    (h : bare.read .nothing texts = .ok given) : ¬ GivesAgain texts := by
  have hstart : Counted 0 0 bare .nothing := ⟨rfl, rfl⟩
  obtain ⟨hformats, hverboses⟩ := hstart.read h
  have hle := given.verbose.toNat_le
  rw [Option.length_toList] at hformats
  simp only [Held.formats] at hformats
  rintro (htwice | htwice)
  · split at hformats <;> omega
  · omega

/-! ## Whole calls -/

theorem ofArguments_scan (texts : List String) :
    Command.ofArguments ("scan" :: texts)
      = (bare.read .nothing texts).map fun arguments => some (.scan arguments) := rfl

/-- However the arguments of a scan are written, they are read back, and the values among them may
be any texts.  The format and the flag for more messages cannot be given again. -/
theorem ofArguments_line :
    (∀ tellings arguments, Tells tellings arguments →
      (∀ path, arguments.path = some path → path.text ≠ "") →
      Command.ofArguments ("scan" :: line tellings arguments.path)
        = .ok (some (.scan arguments))) ∧
    (∀ tellings path, Repeats tellings →
      Command.ofArguments ("scan" :: line tellings path) = .error (.misuse .repeated)) ∧
    ∀ texts, GivesAgain texts →
      ∃ reply, Command.ofArguments ("scan" :: texts) = .error reply := by
  refine ⟨?_, ?_, ?_⟩
  · intro tellings arguments htells hpath
    have hcompletes : Completes bare tellings { arguments with path := none } :=
      ⟨rfl, htells.ignores, htells.extensions, htells.format,
        (Nat.zero_add _).trans htells.verbose⟩
    have hfolder : settle { arguments with path := none } (Held.ofPath arguments.path)
        = .ok arguments := by
      obtain ⟨path, format, ignores, extensions, verbose⟩ := arguments
      cases path with
      | none => rfl
      | some path =>
        have hempty : path.text.isEmpty = false := by
          simpa using hpath path rfl
        rw [Held.ofPath, settle, if_neg (by rw [hempty]; decide)]
    have hread : (do
        let settled ← bare.settle .nothing
        let given ← settled.acceptAll tellings
        given.settle (Held.ofPath arguments.path)) = .ok arguments := by
      rw [← hfolder]
      exact congrArg (· >>= fun given => given.settle (Held.ofPath arguments.path))
        hcompletes.acceptAll
    rw [ofArguments_scan, read_line tellings arguments.path rfl rfl, hread]
    rfl
  · intro tellings path hrepeats
    rw [ofArguments_scan, read_line tellings path rfl rfl]
    simp only [settle, bind, Except.bind, acceptAll_of_repeats hrepeats]
    rfl
  · intro texts hagain
    rw [ofArguments_scan]
    cases hread : bare.read .nothing texts with
    | error reply => exact ⟨reply, rfl⟩
    | ok given => exact absurd hagain (not_givesAgain_of_read hread)

/-- Arguments whose values look like flags and escapes. -/
def guarded : ScanArguments := ⟨some ⟨"--help"⟩, some .json, ["-v", "--"], ["a=b"], true⟩

/-- One way to write them. -/
def guardedTellings : List Telling :=
  [.ignore "-v", .format .json false, .extension "a=b", .ignore "--", .verbose true]

theorem ofArguments_line_guarded :
    Tells guardedTellings guarded ∧
      Command.ofArguments ["scan", "--ignore=-v", "--format", "json", "--extension=a=b",
          "--ignore=--", "-v", "--", "--help"] = .ok (some (.scan guarded)) ∧
      Command.ofArguments ["scan", "--ignore=-v", "--format", "json", "--extension=a=b",
          "--ignore=--", "-v", "--format=json", "--", "--help"] = .error (.misuse .repeated) ∧
      ∃ reply, Command.ofArguments ["scan", "specs", "-vv", "--ignore"] = .error reply := by
  have htells : Tells guardedTellings guarded := ⟨rfl, rfl, rfl, rfl⟩
  have hpath : ∀ path, guarded.path = some path → path.text ≠ "" := by
    intro path hpath
    cases hpath
    decide
  have hrepeats : Repeats (guardedTellings ++ [.format .json true]) := Or.inl (by decide)
  have hagain : GivesAgain ["specs", "-vv", "--ignore"] := Or.inr (by decide)
  exact ⟨htells, ofArguments_line.1 _ _ htells hpath,
    ofArguments_line.2.1 _ guarded.path hrepeats, ofArguments_line.2.2 _ hagain⟩

end ScanArguments

end FeatureDigest
