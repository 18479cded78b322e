/-!
# Binary magnitudes

Magnitudes of the 64-bit binary floating point format, as exact dyadic numbers:
a mantissa below `2 ^ 53` and an exponent from `-1074` to `971`.  Every operation
is exact and then rounded once, to the nearest magnitude and to the even one of
two that are equally near.
-/

set_option autoImplicit false

namespace FeatureDigest.Decimal

/-- The number `mantissa * 2 ^ exponent`. -/
structure Magnitude where
  mantissa : Nat
  exponent : Int
  deriving DecidableEq, Repr, Inhabited

namespace Magnitude

/-- The least exponent of the format. -/
def leastExponent : Int := -1074

/-- The greatest exponent of the format. -/
def greatestExponent : Int := 971

/-- Zero. -/
def zero : Magnitude := ⟨0, leastExponent⟩

/-- The quotient rounded to the nearest integer, to the even one of two. -/
def roundQuotient (num den : Nat) : Nat :=
  let quotient := num / den
  let twice := 2 * (num % den)
  if twice < den then quotient
  else if den < twice then quotient + 1
  else quotient + quotient % 2

/-- `num / den` divided by `2 ^ exponent`, as a quotient. -/
def shifted (num den : Nat) (exponent : Int) : Nat × Nat :=
  if 0 ≤ exponent then (num, den * Nat.pow 2 exponent.toNat)
  else (num * Nat.pow 2 (-exponent).toNat, den)

/-- The exponent at which `num / den` has a mantissa of 53 bits. -/
def fullExponent (num den : Nat) : Int :=
  let estimate : Int := (num.log2 : Int) - den.log2 - 52
  let (n, d) := shifted num den estimate
  if n / d < Nat.pow 2 52 then estimate - 1 else estimate

/-- The magnitude nearest to `num / den`; `none` beyond the greatest one. -/
def round? (num den : Nat) : Option Magnitude :=
  if num = 0 then some zero
  else
    let exponent := max (fullExponent num den) leastExponent
    let (n, d) := shifted num den exponent
    let mantissa := roundQuotient n d
    let rounded : Magnitude :=
      if mantissa = Nat.pow 2 53 then ⟨Nat.pow 2 52, exponent + 1⟩ else ⟨mantissa, exponent⟩
    if greatestExponent < rounded.exponent then none else some rounded

/-- The magnitude as a quotient. -/
def quotient (x : Magnitude) : Nat × Nat :=
  if 0 ≤ x.exponent then (x.mantissa * Nat.pow 2 x.exponent.toNat, 1)
  else (x.mantissa, Nat.pow 2 (-x.exponent).toNat)

/-- The magnitude nearest to the product. -/
def mul? (x y : Magnitude) : Option Magnitude :=
  let (n, d) := x.quotient
  let (n', d') := y.quotient
  round? (n * n') (d * d')

/-- The magnitude nearest to the quotient. -/
def div? (x y : Magnitude) : Option Magnitude :=
  let (n, d) := x.quotient
  let (n', d') := y.quotient
  round? (n * d') (d * n')

/-- The magnitude nearest to a power of ten. -/
def powerOfTen (k : Nat) : Magnitude := (round? (Nat.pow 10 k) 1).getD zero

end Magnitude

end FeatureDigest.Decimal
