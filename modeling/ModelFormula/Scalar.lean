/-!
# Scalars

The arithmetic that splines and polynomials need. They are computed in floating point numbers, and
the same definitions can be read over exact numbers.
-/
namespace ModelFormula

class Scalar (K : Type) extends Add K, Sub K, Mul K, Div K, LT K, BEq K where
  ofNat : Nat → K
  decidableLT : DecidableLT K
  /-- The integer part of a nonnegative number. -/
  floor : K → Nat
  sum : List K → K

attribute [reducible, instance] Scalar.decidableLT

namespace Scalar

/-- Short lists are added from left to right; of longer ones every eighth number goes to the same of
eight partial sums, and lists above 128 numbers are halved first. -/
def pairwiseSum (xs : List Float) : Float :=
  if xs.length < 8 then xs.foldl (· + ·) 0.0
  else if xs.length ≤ 128 then
    let whole := xs.length - xs.length % 8
    let (body, tail) := xs.splitAt whole
    tail.foldl (· + ·) (joined (partialSums body.length body))
  else
    let half := xs.length / 2 - xs.length / 2 % 8
    pairwiseSum (xs.take half) + pairwiseSum (xs.drop half)
termination_by xs.length
decreasing_by all_goals (simp only [List.length_take, List.length_drop]; omega)
where
  /-- Eight sums, each over every eighth number. -/
  partialSums (fuel : Nat) (xs : List Float) : List Float :=
    match fuel with
    | 0 => []
    | fuel + 1 =>
      let first := xs.take 8
      let rest := xs.drop 8
      if rest.isEmpty then first
      else addRows fuel first rest
  addRows (fuel : Nat) (sums rest : List Float) : List Float :=
    match fuel with
    | 0 => sums
    | fuel + 1 =>
      if rest.isEmpty then sums
      else addRows fuel (List.zipWith (· + ·) sums (rest.take 8)) (rest.drop 8)
  joined : List Float → Float
    | [a, b, c, d, e, f, g, h] => ((a + b) + (c + d)) + ((e + f) + (g + h))
    | xs => xs.foldl (· + ·) 0.0

instance : Scalar Float where
  ofNat n := n.toFloat
  decidableLT := inferInstance
  floor x := x.floor.toUInt64.toNat
  sum := pairwiseSum

end Scalar

end ModelFormula
