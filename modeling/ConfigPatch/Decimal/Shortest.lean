import ConfigPatch.Decimal.Binary64

/-!
# The shortest decimal of a double

Every double is the rounding of an interval of numbers around it.
`shortest` takes the coarsest decimal grid with a point in that interval,
and of its points the one nearest to the double. So its digits are the
fewest that read back as the same double.
-/

namespace ConfigPatch.Decimal

/-- A decimal number, `digits * 10 ^ exponent`. -/
structure Scaled where
  digits : Nat
  exponent : Int
deriving DecidableEq

/-- The interval of the numbers that round to a double, in quarters of the
unit `2 ^ exponent`: its lower end, the double itself, its upper end. Below
a power of two the neighbour is only half as far. -/
def Magnitude.interval (x : Magnitude) : Nat × Nat × Nat :=
  let m := x.mantissa
  let lower := if m = 1 <<< 52 ∧ -1074 < x.exponent then 4 * m - 1 else 4 * m - 2
  (lower, 4 * m, 4 * m + 2)

/-- The point of the grid of multiples of `10 ^ e` that lies in the
interval of a double, if there is one; the nearer of two, and the even one
where both are equally near. The ends belong to the interval of an even
mantissa. -/
def Magnitude.onGrid? (x : Magnitude) (e : Int) : Option Scaled :=
  let (lower, middle, upper) := x.interval
  -- a quarter of the unit is `unit.1 / unit.2` points of the grid
  let quarter := scale 2 1 1 (2 - x.exponent)
  let unit := scale 10 quarter.1 quarter.2 e
  let inside (n : Nat) : Bool :=
    if x.mantissa % 2 = 0 then
      lower * unit.1 ≤ n * unit.2 && n * unit.2 ≤ upper * unit.1
    else lower * unit.1 < n * unit.2 && n * unit.2 < upper * unit.1
  let below := middle * unit.1 / unit.2
  let above := below + 1
  match inside below, inside above with
  | false, false => none
  | true, false => some ⟨below, e⟩
  | false, true => some ⟨above, e⟩
  | true, true =>
    let twice := 2 * (middle * unit.1)
    let half := (2 * below + 1) * unit.2
    if twice < half then some ⟨below, e⟩
    else if half < twice then some ⟨above, e⟩
    else some ⟨below + below % 2, e⟩

/-- An exponent of ten that no number below `2 ^ n` reaches. -/
def decimalBound (n : Int) : Int := n * 30103 / 100000 + 1

/-- **The shortest decimal**: on the coarsest grid with a point that reads
back. Seventeen digits always do. -/
def Magnitude.shortest (x : Magnitude) : Scaled :=
  if x.isZero then ⟨0, 0⟩
  else
    let top := decimalBound (x.exponent + x.mantissa.log2 + 1)
    let found := (List.range 20).findSome? fun (k : Nat) => x.onGrid? (top - k)
    found.getD ⟨0, 0⟩

/-- **How doubles are written**: the decimal exponents `d.ddd * 10 ^ e`
from `least` up to below `bound` positionally, the others with an
exponent. -/
structure Layout where
  least : Int
  bound : Int

/-- The digits with the point put in: `exponent` is that of the first
digit, and at least one digit stands on either side. -/
def positional (digits : List Char) (exponent : Int) : List Char :=
  match exponent with
  | .negSucc n => '0' :: '.' :: (List.replicate n '0' ++ digits)
  | .ofNat n =>
    let whole := n + 1
    let fraction := digits.drop whole
    digits.take whole ++ List.replicate (whole - digits.length) '0' ++
      '.' :: (if fraction.isEmpty then ['0'] else fraction)

/-- The digits with an exponent whose sign is always written; the point
only stands where digits follow. -/
def scientific (digits : List Char) (exponent : Int) : List Char :=
  let sign := if exponent < 0 then '-' else '+'
  let fraction := if digits.length ≤ 1 then [] else '.' :: digits.drop 1
  digits.take 1 ++ fraction ++ 'e' :: sign :: Nat.toDigits 10 exponent.natAbs

/-- The written form of a double without its sign. -/
def Layout.write (layout : Layout) (x : Magnitude) : List Char :=
  let d := x.shortest
  let digits := Nat.toDigits 10 d.digits
  let exponent := d.exponent + (digits.length - 1 : Nat)
  if layout.least ≤ exponent ∧ exponent < layout.bound then positional digits exponent
  else scientific digits exponent

end ConfigPatch.Decimal
