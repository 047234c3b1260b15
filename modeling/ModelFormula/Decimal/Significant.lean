import ModelFormula.Decimal.Shortest

/-!
# A fixed number of significant digits

A number is rounded to a count of significant digits, a half to the even neighbour, and written
without the zeros at its end.
-/
namespace ModelFormula.Decimal

/-- The digits and the exponent of the leading one, after rounding to `count` digits. -/
def significantDigits (count : Nat) (b : Binary) : Nat × Int :=
  let (num, den) := b.quotient
  let k := leadingExponent num den
  let (num, den) := inUnits num den (k + 1 - count)
  let digits := roundDiv num den
  if digits = Nat.pow 10 count then (Nat.pow 10 (count - 1), k + 1) else (digits, k)

/-- Exponents from -4 up to the count of digits are written positionally. -/
def significantText (count : Nat) (x : Float) : String :=
  signed ⟨"NaN", "Infinity"⟩ (fun x =>
    if x == 0.0 then "0" else
    let (digits, e) := significantDigits count (Binary.ofFloat x)
    let trimmed := Nat.toDigits 10 (Scientific.mk digits 0).trim.digits
    if -4 ≤ e ∧ e < count then String.ofList (positional trimmed e)
    else String.ofList (exponentForm trimmed e)) x

end ModelFormula.Decimal
