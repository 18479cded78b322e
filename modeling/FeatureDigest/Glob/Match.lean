import FeatureDigest.Glob.Pattern

/-!
# Glob matching

A text matches when it can be cut into one part for each token.  Runs are tried
from the shortest on.  A token that finds the text used up ends the whole search,
since longer runs before it would leave even less.
-/

set_option autoImplicit false

namespace FeatureDigest.Glob

/-- What trying a part of a pattern shows. -/
inductive Verdict
  | matched
  /-- No match from here; a longer run before may still lead to one. -/
  | refused
  /-- The text is used up, so no longer run before can lead to a match. -/
  | exhausted
  deriving DecidableEq, Repr

/-- The character is the member, or in its range. -/
def Member.admits (c : Char) : Member → Bool
  | .single d => c == d
  | .range low high => low.toNat ≤ c.toNat && c.toNat ≤ high.toNat

/-- The token stands for the one character. -/
def Token.admits (c : Char) : Token → Bool
  | .char d => c == d
  | .anyChar => true
  | .anyRun => false
  | .anyComponents => false
  | .within members => members.any (Member.admits c)
  | .except members => !members.any (Member.admits c)

/-- Tries `next` after each run of at least one character, from the shortest on;
with `whole`, only after runs that end with a slash.  At the end of the text it
is tried once more. -/
def tryLonger (whole : Bool) (next : List Char → Verdict) : List Char → Verdict
  | [] => next []
  | c :: rest =>
    if whole && c != '/' then tryLonger whole next rest
    else
      match next rest with
      | .refused => tryLonger whole next rest
      | verdict => verdict

/-- Tries `next` after each run, from the empty one on. -/
def tryRuns (whole : Bool) (next : List Char → Verdict) (text : List Char) : Verdict :=
  match next text with
  | .refused => tryLonger whole next text
  | verdict => verdict

/-- Tries the tokens on the text. -/
def tryTokens : List Token → List Char → Verdict
  | [], text => if text.isEmpty then .matched else .refused
  | .anyRun :: tokens, text => tryRuns false (tryTokens tokens) text
  | .anyComponents :: tokens, text => tryRuns true (tryTokens tokens) text
  | _ :: _, [] => .exhausted
  | token :: tokens, c :: rest =>
    if token.admits c then tryTokens tokens rest else .refused

/-- The whole text matches the pattern. -/
def Pattern.matches (pattern : Pattern) (text : String) : Bool :=
  tryTokens pattern.tokens text.toList == .matched

end FeatureDigest.Glob
