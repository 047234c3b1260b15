/-!
# Binary floating point numbers as exact quotients

A finite number of the binary64 format is `mantissa * 2 ^ exponent` with a mantissa below `2 ^ 53`.
`nearest` goes the other way: of all numbers of the format it takes the one nearest to a quotient of
natural numbers, and of two that are equally near the one with the even mantissa.
-/
namespace ModelFormula.Decimal

/-- A nonnegative number `mantissa * 2 ^ exponent`. -/
structure Binary where
  mantissa : Nat
  exponent : Int
deriving DecidableEq, Repr

/-- The absolute value of a finite number. -/
def Binary.ofFloat (x : Float) : Binary :=
  let bits := x.toBits.toNat
  let fraction := bits % Nat.pow 2 52
  let biased : Nat := bits / Nat.pow 2 52 % Nat.pow 2 11
  if biased = 0 then ⟨fraction, -1074⟩ else ⟨Nat.pow 2 52 + fraction, (biased : Int) - 1075⟩

/-- The sign bit, which a zero has too. -/
def signBit (x : Float) : Bool := x.toBits.toNat / Nat.pow 2 63 = 1

/-- Numerator and denominator. -/
def Binary.quotient (b : Binary) : Nat × Nat :=
  match b.exponent with
  | .ofNat e => (b.mantissa * Nat.pow 2 e, 1)
  | .negSucc e => (b.mantissa, Nat.pow 2 (e + 1))

/-- The quotient rounded to a natural number, a half to the even one. -/
def roundDiv (num den : Nat) : Nat :=
  let q := num / den
  let r := num % den
  if 2 * r < den then q
  else if den < 2 * r then q + 1
  else if q % 2 = 0 then q else q + 1

/-- The quotient in units of `2 ^ e`, rounded. -/
def roundAt (num den : Nat) (e : Int) : Nat :=
  match e with
  | .ofNat e => roundDiv num (den * Nat.pow 2 e)
  | .negSucc e => roundDiv (num * Nat.pow 2 (e + 1)) den

/-- The number of the format nearest to `num / den`. -/
def nearest (num den : Nat) : Float :=
  if num = 0 ∨ den = 0 then 0.0 else
  let guess : Int := max ((num.log2 : Int) - den.log2 - 53) (-1074)
  let mantissa := roundAt num den guess
  let exponent := if mantissa < Nat.pow 2 53 then guess else guess + 1
  let mantissa := if mantissa < Nat.pow 2 53 then mantissa else roundAt num den exponent
  if mantissa < Nat.pow 2 52 then Float.ofBits mantissa.toUInt64
  else
    let biased := exponent + 1075
    let bits := biased.toNat * Nat.pow 2 52 + (mantissa - Nat.pow 2 52)
    if 2047 * Nat.pow 2 52 ≤ bits then Float.ofBits (2047 * Nat.pow 2 52).toUInt64
    else Float.ofBits bits.toUInt64

/-- The number nearest to an integer. -/
def ofInt (n : Int) : Float :=
  if n < 0 then -(nearest n.natAbs 1) else nearest n.natAbs 1

/-- How an integer compares with a finite number, without rounding either. -/
def compareInt (n : Int) (x : Float) : Ordering :=
  let (num, den) := (Binary.ofFloat x).quotient
  let exact : Int := if signBit x then -(num : Int) else num
  compare (n * den) exact

end ModelFormula.Decimal
