/-!
Sets of code points given by their ranges. A table lists closed ranges in ascending order, and
membership is a binary search. The number of halving steps is an explicit argument, so looking a
character up also evaluates inside a proof.
-/

namespace Minifier.Text

/-- Ascending, disjoint, closed ranges of code points. -/
abbrev RangeTable := Array (Nat × Nat)

namespace RangeTable

/-- Whether `n` lies in one of the ranges with an index in `[lo, hi)`, halving at most `steps` times. -/
def search (table : RangeTable) (n : Nat) : (steps lo hi : Nat) → Bool
  | 0, _, _ => false
  | steps + 1, lo, hi =>
    if hi ≤ lo then false
    else
      match table[(lo + hi) / 2]? with
      | none => false
      | some (first, last) =>
        if n < first then search table n steps lo ((lo + hi) / 2)
        else if last < n then search table n steps ((lo + hi) / 2 + 1) hi
        else true

/-- Whether the code point of `c` lies in the table. A table of `k` ranges needs `log₂ k + 1` halvings. -/
def has (table : RangeTable) (c : Char) : Bool :=
  table.search c.toNat (table.size.log2 + 1) 0 table.size

end RangeTable

end Minifier.Text
