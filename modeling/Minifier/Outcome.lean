import Minifier.Number.Decimal
import Minifier.Text.Basic

/-!
What a minification hands back, and the figures about it. A failed minification hands back the text
that it was given, so an outcome can always be written out.
-/

namespace Minifier

/-- The outcome of one minification: the text, the sizes in bytes before and after, what went wrong and
what is worth knowing. -/
structure Outcome where
  minified : String
  sourceSize : Nat
  minifiedSize : Nat
  errors : List String
  warnings : List String
  deriving DecidableEq, Repr

/-- How many times as large the source is: one for an empty source, and an empty result counts as
one byte. -/
def compressionRatio (sourceSize minifiedSize : Nat) : Binary64 :=
  if sourceSize = 0 then .ofNat 1
  else if minifiedSize = 0 then .ofNat sourceSize
  else (Binary64.ofNat sourceSize).div (.ofNat minifiedSize)

/-- The bytes saved and the share of the source that they are, in whole percent. Both are negative
where the text grew. -/
structure Savings where
  sourceSize : Nat
  minifiedSize : Nat
  saved : Int
  percentage : Int
  deriving DecidableEq, Repr

namespace Savings

/-- The least percentage that is reported, whatever the text has grown to. -/
def leastPercentage : Int := -(Nat.pow 2 63)

/-- The savings between two sizes. The percentage is computed in binary numbers and rounded half away
from zero; of an empty source it is zero. -/
def between (sourceSize minifiedSize : Nat) : Savings :=
  let saved : Int := (sourceSize : Int) - minifiedSize
  let share := ((Binary64.ofNat saved.natAbs).div (.ofNat sourceSize)).mul (.ofNat 100)
  let percent : Int := share.roundHalfUp
  ⟨sourceSize, minifiedSize, saved,
    if sourceSize = 0 then 0 else if saved < 0 then max leastPercentage (-percent) else percent⟩

/-- The savings as a sentence. -/
def describe (savings : Savings) : String :=
  s!"{savings.percentage}% reduction ({savings.sourceSize} -> {savings.minifiedSize} bytes, saved {savings.saved})"

end Savings

namespace Outcome

/-- A text was turned into another. -/
def ofTexts (source minified : String) (warnings : List String) : Outcome :=
  ⟨minified, source.utf8ByteSize, minified.utf8ByteSize, [], warnings⟩

/-- Minification failed: the text comes back as it was. -/
def failed (source error : String) : Outcome :=
  ⟨source, source.utf8ByteSize, source.utf8ByteSize, [error], []⟩

/-- Nothing was done. -/
def unchanged (source : String) : Outcome := ofTexts source source []

def succeeded (outcome : Outcome) : Bool := outcome.errors.isEmpty

/-- How many times as large the source is. -/
def ratio (outcome : Outcome) : Binary64 :=
  compressionRatio outcome.sourceSize outcome.minifiedSize

/-- The savings of an outcome. -/
def savings (outcome : Outcome) : Savings :=
  .between outcome.sourceSize outcome.minifiedSize

end Outcome

end Minifier
