/-!
Non-negative finite numbers of the 64-bit binary format, kept as a mantissa and a power of two and
computed in exact natural-number arithmetic. Each operation rounds the exact result once, to the
nearest number of the format, and a tie goes to the even mantissa.
-/

namespace Minifier

/-- The value `mantissa * 2 ^ exponent`. Rounding gives a mantissa below `2 ^ 53` and an exponent of at
least `-1074`, and a mantissa of at least `2 ^ 52` unless the exponent is the least one. -/
structure Binary64 where
  mantissa : Nat
  exponent : Int
  deriving DecidableEq, Repr, Inhabited

namespace Binary64

def zero : Binary64 := ⟨0, -1074⟩

/-- `num / den` rounded to the nearest integer, ties to even. -/
def roundNearest (num den : Nat) : Nat :=
  let quotient := num / den
  let twice := 2 * (num % den)
  if twice > den ∨ (twice = den ∧ quotient % 2 = 1) then quotient + 1 else quotient

/-- `num / den` as an integer multiple of `2 ^ exponent`, rounded. -/
def onGrid (num den : Nat) (exponent : Int) : Nat :=
  if 0 ≤ exponent then roundNearest num (den * Nat.pow 2 exponent.toNat)
  else roundNearest (num * Nat.pow 2 (-exponent).toNat) den

/-- The least exponent whose grid holds `num / den` below `2 ^ 53`. -/
def gridFor (num den : Nat) : Int :=
  let guess : Int := (num.log2 : Int) - (den.log2 : Int) - 53
  let fits (e : Int) : Bool :=
    if 0 ≤ e then num < Nat.pow 2 53 * den * Nat.pow 2 e.toNat
    else num * Nat.pow 2 (-e).toNat < Nat.pow 2 53 * den
  let least := if fits guess then guess else if fits (guess + 1) then guess + 1 else guess + 2
  max least (-1074)

/-- Moves a mantissa of `2 ^ 53`, which rounding up can give, to the next exponent. -/
def normal (mantissa : Nat) (exponent : Int) : Binary64 :=
  if mantissa = Nat.pow 2 53 then ⟨Nat.pow 2 52, exponent + 1⟩ else ⟨mantissa, exponent⟩

/-- The number nearest to `num / den` for a positive `den`, nothing if that is beyond the largest finite
number. -/
def ofQuotient? (num den : Nat) : Option Binary64 :=
  if num = 0 then some zero
  else
    let exponent := gridFor num den
    let rounded := normal (onGrid num den exponent) exponent
    if rounded.exponent > 971 then none else some rounded

/-- The numerator of the exact value as a fraction. -/
def num (x : Binary64) : Nat := if 0 ≤ x.exponent then x.mantissa * Nat.pow 2 x.exponent.toNat else x.mantissa

/-- The denominator of the exact value as a fraction, a power of two. -/
def den (x : Binary64) : Nat := if 0 ≤ x.exponent then 1 else Nat.pow 2 (-x.exponent).toNat

/-- The number nearest to a natural number far below the limit of the format. -/
def ofNat (n : Nat) : Binary64 := (ofQuotient? n 1).getD zero

/-- The rounded sum. -/
def add (x y : Binary64) : Binary64 :=
  (ofQuotient? (x.num * y.den + y.num * x.den) (x.den * y.den)).getD zero

def mul (x y : Binary64) : Binary64 := (ofQuotient? (x.num * y.num) (x.den * y.den)).getD zero

def div (x y : Binary64) : Binary64 := (ofQuotient? (x.num * y.den) (x.den * y.num)).getD zero

/-- The nearest integer, a tie away from zero. -/
def roundHalfUp (x : Binary64) : Nat := (2 * x.num + x.den) / (2 * x.den)

def lt (x y : Binary64) : Bool := x.num * y.den < y.num * x.den

end Binary64

end Minifier
