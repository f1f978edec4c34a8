/-!
# Binary floating-point magnitudes

A finite double without its sign is `mantissa * 2 ^ exponent` with a
mantissa below `2 ^ 53` and an exponent between -1074 and 971. `round`
takes the one nearest to a fraction, of two equally near ones the one
with the even mantissa. Products and quotients are exact fractions,
rounded once. All of it is arithmetic on natural numbers.
-/

namespace ConfigPatch.Decimal

/-- The number `mantissa * 2 ^ exponent`. -/
structure Magnitude where
  mantissa : Nat
  exponent : Int
deriving DecidableEq

namespace Magnitude

/-- Zero has the least exponent, like the smallest numbers. -/
def zero : Magnitude := ⟨0, -1074⟩

/-- Whether the number is zero. -/
def isZero (x : Magnitude) : Bool := x.mantissa == 0

end Magnitude

/-- The quotient rounded to the nearest natural number, a half to the even
one. -/
def roundDiv (num den : Nat) : Nat :=
  let q := num / den
  let twice := 2 * (num % den)
  if twice < den then q else if den < twice then q + 1 else q + q % 2

/-- The fraction `num / den` divided by `base ^ e`, as a numerator and a
denominator. -/
def scale (base num den : Nat) (e : Int) : Nat × Nat :=
  match e with
  | .ofNat n => (num, den * Nat.pow base n)
  | .negSucc n => (num * Nat.pow base (n + 1), den)

namespace Magnitude

/-- The exponent at which the quotient `num / den` has a mantissa of 53
bits, or the least exponent if that is larger. -/
def exponentOf (num den : Nat) : Int :=
  let e : Int := (num.log2 : Int) - (den.log2 : Int) - 53
  let (n, d) := scale 2 num den e
  max (-1074) (if n < d <<< 53 then e else e + 1)

/-- **The nearest double** to `num / den`, or nothing where that is beyond
the largest one. -/
def round (num den : Nat) : Option Magnitude :=
  if num = 0 then some zero
  else
    let e := exponentOf num den
    let (n, d) := scale 2 num den e
    let m := roundDiv n d
    let x : Magnitude := if m = 1 <<< 53 then ⟨1 <<< 52, e + 1⟩ else ⟨m, e⟩
    if 971 < x.exponent then none else some x

/-- The number as a fraction. -/
def toFraction (x : Magnitude) : Nat × Nat :=
  scale 2 x.mantissa 1 (-x.exponent)

/-- The product, rounded. -/
def mul (x y : Magnitude) : Option Magnitude :=
  let (a, b) := x.toFraction
  let (c, d) := y.toFraction
  round (a * c) (b * d)

/-- The quotient by a number other than zero, rounded. -/
def div (x y : Magnitude) : Option Magnitude :=
  let (a, b) := x.toFraction
  let (c, d) := y.toFraction
  round (a * d) (b * c)

/-- The double nearest to `10 ^ n`. -/
def powerOfTen (n : Nat) : Option Magnitude := round (Nat.pow 10 n) 1

end Magnitude

end ConfigPatch.Decimal
