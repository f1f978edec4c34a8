import ConfigPatch.Decimal.Shortest
import ConfigPatch.Value.Basic

/-!
# Numerals

The numbers of a JSON text as they are written, and the numbers they
stand for. An integer is kept exactly from `-2 ^ 63` to `2 ^ 64 - 1`. Every
other numeral stands for a double: its leading digits, as many as fit
into 64 bits, are taken as one integer, and that is multiplied or divided
by a power of ten in steps which are rounded one by one.
-/

namespace ConfigPatch.Json

open Decimal

/-- A numeral in its parts. The fraction and the exponent are the digits
after the point and after the exponent mark, where these are written. -/
structure Numeral where
  negative : Bool
  whole : List Char
  fraction : Option (List Char)
  exponent : Option (Bool × List Char)
deriving DecidableEq

namespace Numeral

/-- The digits at the start of a text, at least one, and what follows. -/
def readDigits? (cs : List Char) : Option (List Char × List Char) :=
  match cs.span Char.isDigit with
  | ([], _) => none
  | (digits, rest) => some (digits, rest)

/-- The part before the point: a single zero, or digits that start with
another one. -/
def readWhole? (cs : List Char) : Option (List Char × List Char) := do
  let (digits, rest) ← readDigits? cs
  if digits.head? = some '0' ∧ digits ≠ ['0'] then none
  return (digits, rest)

/-- The part from the point on, if there is one. -/
def readFraction? : List Char → Option (Option (List Char) × List Char)
  | '.' :: cs => do
    let (digits, rest) ← readDigits? cs
    return (some digits, rest)
  | cs => some (none, cs)

/-- The sign of an exponent: whether it is negative, and what follows. -/
def readSign : List Char → Bool × List Char
  | '-' :: cs => (true, cs)
  | '+' :: cs => (false, cs)
  | cs => (false, cs)

/-- The part from the exponent mark on, if there is one. -/
def readExponent? : List Char → Option (Option (Bool × List Char) × List Char)
  | [] => some (none, [])
  | c :: cs =>
    if c = 'e' ∨ c = 'E' then do
      let (negative, cs) := readSign cs
      let (digits, rest) ← readDigits? cs
      return (some (negative, digits), rest)
    else some (none, c :: cs)

/-- Reads a whole text as a numeral. -/
def ofChars? (cs : List Char) : Option Numeral := do
  let (negative, cs) := match cs with
    | '-' :: cs => (true, cs)
    | cs => (false, cs)
  let (whole, cs) ← readWhole? cs
  let (fraction, cs) ← readFraction? cs
  let (exponent, cs) ← readExponent? cs
  if cs.isEmpty then some ⟨negative, whole, fraction, exponent⟩ else none

/-- Appends digits to a number as long as it fits into 64 bits; the second
part counts the digits left over. -/
def accumulate (n : Nat) : List Char → Nat × Nat
  | [] => (n, 0)
  | d :: ds =>
    let next := 10 * n + (d.toNat - '0'.toNat)
    if next < 1 <<< 64 then accumulate next ds else (n, ds.length + 1)

/-- Divides by `10 ^ 308` until the exponent is one that a double has, or
nothing is left. -/
def lower (x : Magnitude) (e : Int) : Option (Magnitude × Int) := do
  if e < -308 ∧ !x.isZero then
    let y ← x.div (← Magnitude.powerOfTen 308)
    lower y (e + 308)
  else return (x, e)
termination_by (-e).toNat

/-- **The double of `n * 10 ^ e`**, rounded at every step; nothing where
it is beyond the largest double. -/
def toDouble? (n : Nat) (e : Int) : Option Magnitude := do
  let x ← Magnitude.round n 1
  if x.isZero then return x
  if 308 < e then none
  else if 0 ≤ e then x.mul (← Magnitude.powerOfTen e.toNat)
  else
    let (y, e) ← lower x e
    if y.isZero then return y else y.div (← Magnitude.powerOfTen (-e).toNat)

/-- The number of the exponent part, zero where there is none. -/
def exponentValue (numeral : Numeral) : Int :=
  match numeral.exponent with
  | none => 0
  | some (negative, digits) =>
    let n : Int := Nat.ofDigitChars 10 digits 0
    if negative then -n else n

/-- The number of an integer that fits into 64 bits. A negative zero is a
double, and so is what is too small for a signed word. -/
def ofInteger? (negative : Bool) (n : Nat) : Option Number :=
  if !negative then some (.int n)
  else if n = 0 ∨ 1 <<< 63 < n then (toDouble? n 0).map (.double true)
  else some (.int (-n))

/-- **The number a numeral stands for**; one that is too large stands for
none. -/
def toNumber? (numeral : Numeral) : Option Number :=
  let (n, skipped) := accumulate 0 numeral.whole
  match numeral.fraction, numeral.exponent, skipped with
  | none, none, 0 => ofInteger? numeral.negative n
  | fraction, _, _ =>
    let digits := fraction.getD []
    let (m, left) := accumulate n digits
    let e : Int := (skipped : Int) - (digits.length - left : Nat) + numeral.exponentValue
    (toDouble? m e).map (.double numeral.negative)

end Numeral

/-- Doubles are written positionally from `10 ^ -5` up to below
`10 ^ 16`. -/
def doubleLayout : Layout := ⟨-5, 16⟩

/-- The written form of a number. -/
def numberText : Number → List Char
  | .int n => (toString n).toList
  | .double negative x =>
    if negative then '-' :: doubleLayout.write x else doubleLayout.write x

end ConfigPatch.Json
