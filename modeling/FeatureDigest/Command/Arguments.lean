import FeatureDigest.Command.Basic

/-!
# Arguments

Arguments are read from left to right.  An option takes the next plain argument as
its value, or what follows `=`; flags take none, and one-letter flags may stand
together after one dash.  After `--` every argument is an operand.

A value or an operand is held until the next option, flag or operand, or the end,
and checked only then: an argument without any use in between is reported first.
-/

set_option autoImplicit false

namespace FeatureDigest

/-- How an argument is spelled. -/
inductive Word
  /-- Two dashes alone. -/
  | escape
  /-- Two dashes, a name, and the value after `=` if there is one. -/
  | long (name : List Char) (value : Option (List Char))
  /-- A dash and one or more letters. -/
  | letters (letters : List Char)
  | plain
  deriving DecidableEq, Repr

/-- What stands before the first `=` of a text, and what stands after it. -/
def splitEquals : List Char → List Char × Option (List Char)
  | [] => ([], none)
  | c :: rest =>
    if c = '=' then ([], some rest)
    else (c :: (splitEquals rest).1, (splitEquals rest).2)

/-- The spelling of an argument. -/
def Word.ofText : List Char → Word
  | ['-', '-'] => .escape
  | '-' :: '-' :: rest => .long (splitEquals rest).1 (splitEquals rest).2
  | '-' :: letter :: rest => .letters (letter :: rest)
  | _ => .plain

namespace ScanArguments

/-- The options of a scan that take a value. -/
inductive ValueOption
  | format
  | ignore
  | extension
  deriving DecidableEq, Repr, Inhabited

namespace ValueOption

/-- The name of an option. -/
def name : ValueOption → String
  | .format => "format"
  | .ignore => "ignore"
  | .extension => "extension"

/-- The option of a name. -/
def ofName? (name : List Char) : Option ValueOption :=
  [ValueOption.format, .ignore, .extension].find? fun option =>
    option.name.toList == name

end ValueOption

/-- What is held until the next option, flag or operand. -/
inductive Held
  | nothing
  /-- An option, and its value if it has come. -/
  | value (option : ValueOption) (value : Option String)
  /-- The folder to scan. -/
  | operand (text : String)
  deriving DecidableEq, Repr

/-- The arguments with the value of an option. -/
def setValue (arguments : ScanArguments) (value : String) :
    ValueOption → Except Misuse ScanArguments
  | .format =>
    if arguments.format.isSome then .error .repeated
    else
      match Format.ofName? value with
      | some format => .ok { arguments with format := some format }
      | none => .error .invalidValue
  | .ignore => .ok { arguments with ignores := arguments.ignores ++ [value] }
  | .extension => .ok { arguments with extensions := arguments.extensions ++ [value] }

/-- The arguments with what was held. -/
def settle (arguments : ScanArguments) : Held → Except Misuse ScanArguments
  | .nothing => .ok arguments
  | .value _ none => .error .invalidValue
  | .value option (some value) => arguments.setValue value option
  | .operand text =>
    if text.isEmpty then .error .invalidValue
    else .ok { arguments with path := some ⟨text⟩ }

/-- The arguments with the flag for more messages. -/
def setVerbose (arguments : ScanArguments) : Except Misuse ScanArguments :=
  if arguments.verbose then .error .repeated else .ok { arguments with verbose := true }

/-- No operand was read or is held. -/
def wantsOperand (arguments : ScanArguments) (held : Held) : Bool :=
  match held with
  | .operand _ => false
  | _ => arguments.path.isNone

/-- Answers a misuse. -/
def orReply {α : Type} : Except Misuse α → Except Reply α
  | .ok value => .ok value
  | .error cause => .error (.misuse cause)

/-- Reads one-letter flags that stand together. -/
def readLetters (arguments : ScanArguments) (held : Held) :
    List Char → Except Reply (ScanArguments × Held)
  | [] => .ok (arguments, held)
  | letter :: letters =>
    if letter = 'v' then do
      let settled ← orReply (arguments.settle held)
      let verbose ← orReply settled.setVerbose
      readLetters verbose .nothing letters
    else if letter = 'h' then do
      let _ ← orReply (arguments.settle held)
      .error (.help .scan)
    else .error (.misuse .unknownArgument)

/-- Reads an argument that starts with two dashes. -/
def readLong (arguments : ScanArguments) (held : Held) (name : List Char)
    (value : Option String) : Except Reply (ScanArguments × Held) :=
  if name = "verbose".toList then
    match value with
    | some _ => .error (.misuse .unexpectedValue)
    | none => do
      let settled ← orReply (arguments.settle held)
      let verbose ← orReply settled.setVerbose
      .ok (verbose, .nothing)
  else if name = "help".toList then
    match value with
    | some _ => .error (.misuse .unexpectedValue)
    | none => do
      let _ ← orReply (arguments.settle held)
      .error (.help .scan)
  else
    match ValueOption.ofName? name, value with
    | none, _ => .error (.misuse .unknownArgument)
    | some option, none => do
      let settled ← orReply (arguments.settle held)
      .ok (settled, .value option none)
    | some option, some value => do
      let settled ← orReply (arguments.settle held)
      let given ← orReply (settled.setValue value option)
      .ok (given, .nothing)

/-- Reads an operand. -/
def readOperand (arguments : ScanArguments) (held : Held) (text : String) :
    Except Reply (ScanArguments × Held) :=
  if arguments.wantsOperand held then do
    let settled ← orReply (arguments.settle held)
    .ok (settled, .operand text)
  else .error (.misuse .unknownArgument)

/-- Reads the operands after `--`. -/
def readOperands (arguments : ScanArguments) (held : Held) :
    List String → Except Reply ScanArguments
  | [] => orReply (arguments.settle held)
  | text :: texts => do
    let (arguments, held) ← arguments.readOperand held text
    arguments.readOperands held texts

/-- Reads the arguments of a scan. -/
def read (arguments : ScanArguments) (held : Held) :
    List String → Except Reply ScanArguments
  | [] => orReply (arguments.settle held)
  | text :: texts =>
    match Word.ofText text.toList with
    | .escape => arguments.readOperands held texts
    | .long name value => do
      let (arguments, held) ← arguments.readLong held name (value.map String.ofList)
      arguments.read held texts
    | .letters letters => do
      let (arguments, held) ← arguments.readLetters held letters
      arguments.read held texts
    | .plain =>
      match held with
      | .value option none => arguments.read (.value option (some text)) texts
      | _ => do
        let (arguments, held) ← arguments.readOperand held text
        arguments.read held texts

end ScanArguments

namespace Command

/-- The names of commands, with what help says about each. -/
def topicOf? (name : String) : Option HelpTopic :=
  if name = "scan" then some .scan
  else if name = "init" then some .init
  else if name = "help" then some .help
  else none

/-- Reads the arguments of `init`, which has none but the flag for help. -/
def readInit : List String → Except Reply Command
  | [] => .ok .init
  | text :: texts =>
    match Word.ofText text.toList with
    | .escape => if texts.isEmpty then .ok .init else .error (.misuse .unknownArgument)
    | .long name value =>
      if name = "help".toList then
        .error (if value.isSome then .misuse .unexpectedValue else .help .init)
      else .error (.misuse .unknownArgument)
    | .letters letters =>
      .error (if letters.head? = some 'h' then .help .init else .misuse .unknownArgument)
    | .plain => .error (.misuse .unknownArgument)

/-- Reads the arguments of `help`, at most one name of a command. -/
def readHelp : List String → Reply
  | [] => .help .program
  | [name] =>
    match topicOf? name with
    | some topic => .help topic
    | none => .misuse .unknownCommand
  | _ => .misuse .unknownCommand

/-- Reads arguments that do not start with the name of a command. -/
def readFlags (text : String) (texts : List String) : Except Reply (Option Command) :=
  match Word.ofText text.toList with
  | .escape =>
    match texts with
    | [] => .ok none
    | name :: _ =>
      .error (.misuse (if (topicOf? name).isSome then .unknownArgument else .unknownCommand))
  | .long name value =>
    if name = "help".toList then
      .error (if value.isSome then .misuse .unexpectedValue else .help .program)
    else if name = "version".toList then
      .error (if value.isSome then .misuse .unexpectedValue else .version)
    else .error (.misuse .unknownArgument)
  | .letters letters =>
    .error
      (if letters.head? = some 'h' then .help .program
      else if letters.head? = some 'V' then .version
      else .misuse .unknownArgument)
  | .plain => .error (.misuse .unknownCommand)

/-- The command that the arguments of a call give, if they give one. -/
def ofArguments : List String → Except Reply (Option Command)
  | [] => .ok none
  | text :: texts =>
    match topicOf? text with
    | some .scan =>
      (ScanArguments.bare.read .nothing texts).map fun arguments => some (.scan arguments)
    | some .init => (readInit texts).map some
    | some _ => .error (readHelp texts)
    | none => readFlags text texts

end Command

end FeatureDigest
