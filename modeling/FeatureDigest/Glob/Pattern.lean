/-!
# Glob patterns

A pattern is read character by character.  `?` stands for one character, `*` for
any run of characters, `[…]` and `[!…]` for one character inside and outside a
class.  `**` stands for any run of whole path components and has to be a component
by itself; the slash after it belongs to it.  Positions count characters.
-/

set_option autoImplicit false

namespace FeatureDigest.Glob

/-- One member of a class: a character, or a range with both ends included. -/
inductive Member
  | single (c : Char)
  | range (low high : Char)
  deriving DecidableEq, Repr

/-- What one part of a pattern stands for. -/
inductive Token
  /-- The character itself. -/
  | char (c : Char)
  /-- Any one character. -/
  | anyChar
  /-- Any run of characters. -/
  | anyRun
  /-- Any run of whole path components. -/
  | anyComponents
  /-- One character of the class. -/
  | within (members : List Member)
  /-- One character outside the class. -/
  | except (members : List Member)
  deriving DecidableEq, Repr

/-- Why a text is no pattern. -/
inductive Cause
  /-- Three or more stars in a row. -/
  | wildcards
  /-- `**` that is not a component by itself. -/
  | recursiveWildcards
  /-- A class that is empty or not closed. -/
  | classRange
  deriving DecidableEq, Repr

/-- A text that is no pattern: where, and why. -/
structure Fault where
  position : Nat
  cause : Cause
  deriving DecidableEq, Repr

/-- The wording of a cause. -/
def Cause.message : Cause → String
  | .wildcards => "wildcards are either regular `*` or recursive `**`"
  | .recursiveWildcards => "recursive wildcards must form a single path component"
  | .classRange => "invalid range pattern"

/-- The wording of a fault. -/
def Fault.message (fault : Fault) : String :=
  "Pattern syntax error near position " ++ toString fault.position ++ ": "
    ++ fault.cause.message

/-- The members that the inside of a class lists; `a-b` is a range. -/
def members : List Char → List Member
  | low :: '-' :: high :: rest => .range low high :: members rest
  | c :: rest => .single c :: members rest
  | [] => []

/-- A pattern: its text, and what it stands for. -/
structure Pattern where
  source : String
  tokens : List Token
  deriving DecidableEq, Repr

/-- What the reading of a pattern keeps of the part already read. -/
structure Context where
  /-- How many characters were read. -/
  position : Nat
  /-- The character read last. -/
  last : Option Char
  /-- How many tokens were read. -/
  count : Nat
  /-- The token read last is `**`. -/
  afterComponents : Bool

namespace Context

/-- Nothing was read yet. -/
def start : Context := ⟨0, none, 0, false⟩

/-- One more token, of `width` characters, was read. -/
def push (context : Context) (width : Nat) (last : Char) : Context :=
  ⟨context.position + width, some last, context.count + 1, false⟩

/-- One more `**`, of `width` characters, was read. -/
def pushComponents (context : Context) (width : Nat) (last : Char) (kept : Bool) :
    Context :=
  ⟨context.position + width, some last,
    if kept then context.count + 1 else context.count, true⟩

/-- A `**` read here adds a token.  A run of them is one token, except that a
pattern may start with two. -/
def keepsComponents (context : Context) : Bool :=
  !(1 < context.count && context.afterComponents)

/-- A component may start here. -/
def atComponent (context : Context) : Bool :=
  context.last == none || context.last == some '/'

end Context

mutual

/-- The tokens of the rest of a pattern. -/
def readTokens (context : Context) : List Char → Except Fault (List Token)
  | [] => .ok []
  | '?' :: rest => (readTokens (context.push 1 '?') rest).map (.anyChar :: ·)
  | '*' :: '*' :: '*' :: _ => .error ⟨context.position + 2, .wildcards⟩
  | '*' :: '*' :: '/' :: rest =>
    if context.atComponent then
      let kept := context.keepsComponents
      (readTokens (context.pushComponents 3 '/' kept) rest).map fun tokens =>
        if kept then .anyComponents :: tokens else tokens
    else .error ⟨context.position - 1, .recursiveWildcards⟩
  | '*' :: '*' :: rest =>
    if context.atComponent then
      if rest.isEmpty then
        .ok (if context.keepsComponents then [.anyComponents] else [])
      else .error ⟨context.position + 2, .recursiveWildcards⟩
    else .error ⟨context.position - 1, .recursiveWildcards⟩
  | '*' :: rest => (readTokens (context.push 1 '*') rest).map (.anyRun :: ·)
  | '[' :: '!' :: first :: rest => readClass context true [first] rest
  | '[' :: first :: rest =>
    if first = '!' then .error ⟨context.position, .classRange⟩
    else readClass context false [first] rest
  | '[' :: [] => .error ⟨context.position, .classRange⟩
  | c :: rest => (readTokens (context.push 1 c) rest).map (.char c :: ·)

/-- The tokens of the rest of a pattern inside a class that started in `context`,
its characters so far in reverse. -/
def readClass (context : Context) (negated : Bool) (reversed : List Char) :
    List Char → Except Fault (List Token)
  | [] => .error ⟨context.position, .classRange⟩
  | ']' :: rest =>
    let listed := members reversed.reverse
    let width := reversed.length + if negated then 3 else 2
    (readTokens (context.push width ']') rest).map
      ((if negated then .except listed else .within listed) :: ·)
  | c :: rest => readClass context negated (c :: reversed) rest

end

/-- The pattern that a text spells. -/
def compile (source : String) : Except Fault Pattern :=
  (readTokens .start source.toList).map fun tokens => ⟨source, tokens⟩

end FeatureDigest.Glob
