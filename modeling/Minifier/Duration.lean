import Minifier.Number.Decimal
import Minifier.Text.Basic

/-!
Spans of time in whole nanoseconds, and their text: the largest of four units that the span fills at
least once, and nanoseconds for no time at all.
-/

namespace Minifier

/-- A span of time in nanoseconds. -/
structure Duration where
  nanos : Nat
  deriving DecidableEq, Repr

namespace Duration

def ofMillis (n : Nat) : Duration := ⟨n * 1000000⟩

/-- The unit for a span: its name and its length in nanoseconds. -/
def unit (duration : Duration) : String × Nat :=
  if 1000000000 ≤ duration.nanos then ("s", 1000000000)
  else if 1000000 ≤ duration.nanos then ("ms", 1000000)
  else if 1000 ≤ duration.nanos then ("µs", 1000)
  else ("ns", 1)

/-- The exact text of a span, without zeros at the end of its fraction. -/
def exact (duration : Duration) : String :=
  let (name, length) := duration.unit
  let fraction := Text.dropTail (· == '0')
    ((Decimal.fixed (duration.nanos % length) length 9).drop 2)
  let whole := Decimal.digitChars (duration.nanos / length)
  String.ofList (if fraction = [] then whole else whole ++ '.' :: fraction) ++ name

/-- The text of a span with two decimals, ties to even. -/
def rounded (duration : Duration) : String :=
  let (name, length) := duration.unit
  String.ofList (Decimal.fixed duration.nanos length 2) ++ name

end Duration

end Minifier
