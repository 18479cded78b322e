/-!
# When to use colours

Colours are used on a terminal.  A variable of the environment counts as set to yes
unless it is `0`; `CLICOLOR_FORCE` turns colours on anywhere, `NO_COLOR` turns them
off when it is there at all, and `CLICOLOR` can turn them off on a terminal.
-/

set_option autoImplicit false

namespace FeatureDigest

/-- The variables of the environment that speak about colours. -/
structure ColourVariables where
  clicolor : Option String
  clicolorForce : Option String
  noColor : Option String
  deriving DecidableEq, Repr, Inhabited

/-- Colours are to be used. -/
def ColourVariables.wantColour (given : ColourVariables) (terminal : Bool) : Bool :=
  let isYes := fun value : String => value != "0"
  if given.clicolorForce.any isYes then true
  else if given.noColor.isSome then false
  else terminal && given.clicolor.all isYes

end FeatureDigest
