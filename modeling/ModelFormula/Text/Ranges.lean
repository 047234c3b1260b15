/-!
# Ranges of code points

A class of characters is given by closed ranges of code points, in increasing order. A long one is
given by the lengths of the runs of code points that lie outside and inside of it by turns, from zero
on.
-/
namespace ModelFormula.Text

/-- The character lies in one of the closed ranges. -/
def inRanges (ranges : List (Nat × Nat)) (c : Char) : Bool :=
  ranges.any fun (low, high) => low ≤ c.toNat && c.toNat ≤ high

/-- The number lies in one of the runs inside. -/
def inRuns : List Nat → Nat → Bool
  | outside :: inside :: rest, n =>
    outside ≤ n && (n < outside + inside || inRuns rest (n - (outside + inside)))
  | _, _ => false

end ModelFormula.Text
