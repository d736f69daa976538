import Minifier.Number.Binary64

/-!
Decimal text of numbers: the fewest digits that read back as the same binary number, and a fixed
number of places rounded on the exact value.
-/

namespace Minifier

/-- The value `digits * 10 ^ exponent`. -/
structure Decimal where
  digits : Nat
  exponent : Int
  deriving DecidableEq, Repr

namespace Decimal

def digitChars (n : Nat) : List Char := Nat.toDigits 10 n

/-- The power of ten below or at `num / den`, for positive numbers: the exponent of its scientific
form. -/
def magnitude (num den : Nat) : Int :=
  let guess : Int := (((num.log2 : Int) - (den.log2 : Int)) * 30103) / 100000 - 1
  let atLeast (p : Int) : Bool :=
    if 0 ≤ p then den * Nat.pow 10 p.toNat ≤ num else den ≤ num * Nat.pow 10 (-p).toNat
  if atLeast (guess + 3) then guess + 3
  else if atLeast (guess + 2) then guess + 2
  else if atLeast (guess + 1) then guess + 1
  else if atLeast guess then guess
  else guess - 1

/-- Cancels factors of ten, at most `fuel` of them. -/
def stripZeros : (fuel : Nat) → Decimal → Decimal
  | 0, d => d
  | fuel + 1, d => if d.digits % 10 = 0 ∧ d.digits ≠ 0 then stripZeros fuel ⟨d.digits / 10, d.exponent + 1⟩ else d

/-- Whether `digits * 10 ^ exponent` reads back as the number: it lies between the midpoints to the
neighbours, or on one of them where the mantissa is even. -/
def readsBack (x : Binary64) (digits : Nat) (exponent : Int) : Bool :=
  let scale (n : Nat) (e : Int) : Nat := if 0 ≤ e then n * Nat.pow 10 e.toNat else n
  let unscale (e : Int) : Nat := if 0 ≤ e then 1 else Nat.pow 10 (-e).toNat
  -- in quarters of a unit in the last place
  let quarters : Nat := if 0 ≤ x.exponent then Nat.pow 2 x.exponent.toNat else 1
  let divisor : Nat := 4 * (if 0 ≤ x.exponent then 1 else Nat.pow 2 (-x.exponent).toNat)
  let below := if x.mantissa = Nat.pow 2 52 ∧ x.exponent > -1074 then 1 else 2
  let low := (4 * x.mantissa - below) * quarters * unscale exponent
  let high := (4 * x.mantissa + 2) * quarters * unscale exponent
  let candidate := scale digits exponent * divisor
  if x.mantissa % 2 = 0 then low ≤ candidate ∧ candidate ≤ high else low < candidate ∧ candidate < high

/-- The nearest of the two decimals with `count` digits around a number, if one of them reads back. -/
def nearestWith (x : Binary64) (top : Int) (count : Nat) : Option Decimal :=
  let exponent : Int := top - count + 1
  let num := if 0 ≤ exponent then x.num else x.num * Nat.pow 10 (-exponent).toNat
  let den := if 0 ≤ exponent then x.den * Nat.pow 10 exponent.toNat else x.den
  let lower := num / den
  let remainder := num % den
  let preferUpper : Bool := 2 * remainder > den ∨ (2 * remainder = den ∧ lower % 2 = 1)
  let first := if preferUpper then lower + 1 else lower
  let second := if preferUpper then lower else lower + 1
  if readsBack x first exponent then some ⟨first, exponent⟩
  else if readsBack x second exponent then some ⟨second, exponent⟩
  else none

/-- The decimal with the fewest digits that reads back as `x`, the nearest of those. Seventeen digits
always suffice. -/
def shortest (x : Binary64) : Decimal :=
  if x.mantissa = 0 then ⟨0, 0⟩
  else
    let top := magnitude x.num x.den
    match (List.range 17).findSome? fun i => nearestWith x top (i + 1) with
    | some found => stripZeros 20 found
    | none => ⟨0, 0⟩

/-- Where a layout changes from plain digits to an exponent. -/
structure Layout where
  /-- The least decimal exponent that is written plainly. -/
  plainFrom : Int
  /-- The greatest decimal exponent that is written plainly. -/
  plainTo : Int

/-- Writes a decimal: plainly with at least one place if its scientific exponent is within the layout's
bounds, otherwise with one digit before the point and a signed exponent. -/
def render (layout : Layout) (d : Decimal) : List Char :=
  let digits := digitChars d.digits
  let scientific : Int := d.exponent + (digits.length : Int) - 1
  if d.digits = 0 then ['0', '.', '0']
  else if layout.plainFrom ≤ scientific ∧ scientific ≤ layout.plainTo then
    if 0 ≤ d.exponent then digits ++ List.replicate d.exponent.toNat '0' ++ ['.', '0']
    else if 0 ≤ scientific then
      let whole := scientific.toNat + 1
      digits.take whole ++ '.' :: digits.drop whole
    else '0' :: '.' :: List.replicate ((-scientific).toNat - 1) '0' ++ digits
  else
    let sign := if 0 ≤ scientific then '+' else '-'
    let fraction := if digits.length = 1 then [] else '.' :: digits.drop 1
    digits.take 1 ++ fraction ++ 'e' :: sign :: digitChars scientific.natAbs

/-- `num / den` with the given number of places, rounded to nearest on the exact value, ties to even. -/
def fixed (num den places : Nat) : List Char :=
  let scaled := Binary64.roundNearest (num * Nat.pow 10 places) den
  let whole := digitChars (scaled / Nat.pow 10 places)
  if places = 0 then whole
  else
    let fraction := digitChars (scaled % Nat.pow 10 places)
    whole ++ '.' :: List.replicate (places - fraction.length) '0' ++ fraction

end Decimal

end Minifier
