import FeatureDigest.Decimal.Magnitude

/-!
# Shortest decimals

The shortest decimal that reads back as a given magnitude: the fewest digits for
which a decimal lies between the halfway points to the neighbouring magnitudes,
and of those decimals the nearest, the even one when two are equally near.  The
halfway points count when the mantissa is even, because reading rounds to even.
-/

set_option autoImplicit false

namespace FeatureDigest.Decimal

/-- The number `digits * 10 ^ exponent`. -/
structure Scaled where
  digits : Nat
  exponent : Int
  deriving DecidableEq, Repr, Inhabited

/-- Compares `a * 10 ^ s` with `b * 2 ^ t`. -/
def compareScaled (a : Nat) (s : Int) (b : Nat) (t : Int) : Ordering :=
  compare (a * Nat.pow 10 s.toNat * Nat.pow 2 (-t).toNat)
    (b * Nat.pow 2 t.toNat * Nat.pow 10 (-s).toNat)

/-- The decimal reads back as the magnitude. -/
def readsBack (x : Magnitude) (decimal : Scaled) : Bool :=
  let narrow := x.mantissa = Nat.pow 2 52 && x.exponent != Magnitude.leastExponent
  let low := compareScaled decimal.digits decimal.exponent
    (4 * x.mantissa - if narrow then 1 else 2) (x.exponent - 2)
  let high := compareScaled decimal.digits decimal.exponent
    (4 * x.mantissa + 2) (x.exponent - 2)
  if x.mantissa % 2 = 0 then low != .lt && high != .gt
  else low == .gt && high == .lt

/-- The exponent of the leading decimal digit of `num / den`. -/
def leadingExponent (num den : Nat) : Int :=
  if den ≤ num then ((Nat.toDigits 10 (num / den)).length : Int) - 1
  else
    let width := (Nat.toDigits 10 (den / num)).length
    if den ≤ num * Nat.pow 10 (width - 1) then -((width : Int) - 1) else -(width : Int)

/-- The whole number next to `n / d`, the even one when two are equally near. -/
def nearestEven (n d : Nat) : Nat :=
  let q := n / d
  match compare (2 * (n % d)) d with
  | .lt => q
  | .gt => q + 1
  | .eq => if q % 2 = 0 then q else q + 1

/-- Of the two decimals next to the magnitude with steps of `10 ^ exponent`, the
one that reads back, and the nearer one when both do. -/
def onGrid? (x : Magnitude) (exponent : Int) : Option Scaled :=
  let (num, den) := x.quotient
  let n := num * Nat.pow 10 (-exponent).toNat
  let d := den * Nat.pow 10 exponent.toNat
  let below : Scaled := ⟨n / d, exponent⟩
  let above : Scaled := ⟨n / d + 1, exponent⟩
  match readsBack x below, readsBack x above with
  | true, true => some ⟨nearestEven n d, exponent⟩
  | true, false => some below
  | false, true => some above
  | false, false => none

/-- Tries grids of more and more digits. -/
def shortestFrom (x : Magnitude) : (tries : Nat) → (exponent : Int) → Scaled
  | 0, exponent => ⟨0, exponent⟩
  | tries + 1, exponent =>
    (onGrid? x exponent).getD (shortestFrom x tries (exponent - 1))

/-- The shortest decimal that reads back as the magnitude.  Seventeen digits are
always enough. -/
def shortest (x : Magnitude) : Scaled :=
  let (num, den) := x.quotient
  if num = 0 then ⟨0, 0⟩ else shortestFrom x 17 (leadingExponent num den)

/-- The digits without the zeros they end with, most significant first. -/
def significant (digits : Nat) : List Char :=
  ((Nat.toDigits 10 digits).reverse.dropWhile (· == '0')).reverse

end FeatureDigest.Decimal
