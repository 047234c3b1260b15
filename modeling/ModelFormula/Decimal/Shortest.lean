import ModelFormula.Decimal.Binary

/-!
# Shortest decimals

The shortest decimal of a number is the one with the fewest digits that is nearer to it than to any
other number of the format. Grids of 1, 2, … 17 digits are tried in turn, and on each only the two
points around the number can qualify.
-/
namespace ModelFormula.Decimal

/-- A positive decimal `digits * 10 ^ exponent`. -/
structure Scientific where
  digits : Nat
  exponent : Int
deriving DecidableEq, Repr

/-- The exponent of the leading digit: `10 ^ k ≤ num / den < 10 ^ (k + 1)`. -/
def leadingExponent (num den : Nat) : Int :=
  if den ≤ num then ((Nat.toDigits 10 (num / den)).length : Int) - 1
  else
    let count := (Nat.toDigits 10 (den / num)).length
    if num * Nat.pow 10 (count - 1) = den then 1 - (count : Int) else -(count : Int)

/-- `num / den` in units of `10 ^ e`, as a quotient. -/
def inUnits (num den : Nat) (e : Int) : Nat × Nat :=
  match e with
  | .ofNat e => (num, den * Nat.pow 10 e)
  | .negSucc e => (num * Nat.pow 10 (e + 1), den)

/-- The end points of the interval of quotients that round to the number, over four times the
denominator of the number. -/
def roundingInterval (b : Binary) : Nat × Nat :=
  let below := if b.mantissa = Nat.pow 2 52 ∧ b.exponent ≠ -1074 then 1 else 2
  (4 * b.mantissa - below, 4 * b.mantissa + 2)

/-- The point of the grid of `count` digits that qualifies, the nearer of two. -/
def gridPoint? (b : Binary) (k : Int) (count : Nat) : Option Scientific :=
  let scale := ({ b with mantissa := 1 } : Binary).quotient
  let e := k + 1 - count
  let (low, high) := roundingInterval b
  let (lowNum, den) := inUnits (low * scale.1) (4 * scale.2) e
  let (highNum, _) := inUnits (high * scale.1) (4 * scale.2) e
  let (num, _) := inUnits (4 * b.mantissa * scale.1) (4 * scale.2) e
  let closed := b.mantissa % 2 = 0
  let qualifies (d : Nat) : Bool :=
    if closed then lowNum ≤ d * den && d * den ≤ highNum
    else lowNum < d * den && d * den < highNum
  let floor := num / den
  let down := qualifies floor && floor != 0
  let up := qualifies (floor + 1)
  let rest := num % den
  if down && up then
    if 2 * rest < den then some ⟨floor, e⟩
    else if den < 2 * rest then some ⟨floor + 1, e⟩
    else some ⟨if floor % 2 = 0 then floor else floor + 1, e⟩
  else if down then some ⟨floor, e⟩
  else if up then some ⟨floor + 1, e⟩
  else none

/-- Removes the zeros at the end of the digits. -/
def Scientific.trim (s : Scientific) : Scientific :=
  let zeros := ((Nat.toDigits 10 s.digits).reverse.takeWhile (· == '0')).length
  if s.digits = 0 then s else ⟨s.digits / Nat.pow 10 zeros, s.exponent + zeros⟩

/-- The shortest decimal of a positive number. -/
def shortest (b : Binary) : Scientific :=
  let (num, den) := b.quotient
  let k := leadingExponent num den
  let found := (List.range 17).findSome? fun i => gridPoint? b k (i + 1)
  match found with
  | some s => s.trim
  | none => ⟨0, 0⟩

/-- Zeros in front up to the given width. -/
def padLeft (width : Nat) (fill : Char) (s : List Char) : List Char :=
  List.replicate (width - s.length) fill ++ s

/-- An exponent with its sign and at least two digits. -/
def exponentText (e : Int) : List Char :=
  (if e < 0 then '-' else '+') :: padLeft 2 '0' (Nat.toDigits 10 e.natAbs)

/-- Digits with the point after the first, followed by the exponent. -/
def exponentForm (digits : List Char) (e : Int) : List Char :=
  let mantissa := match digits with
    | [] => []
    | [d] => [d]
    | d :: rest => d :: '.' :: rest
  mantissa ++ 'e' :: exponentText e

/-- Digits with the point where the exponent of the leading digit puts it; a whole number has no
point. -/
def positional (digits : List Char) (e : Int) : List Char :=
  match e with
  | .ofNat e =>
    if digits.length ≤ e + 1 then digits ++ List.replicate (e + 1 - digits.length) '0'
    else digits.take (e + 1) ++ '.' :: digits.drop (e + 1)
  | .negSucc e => '0' :: '.' :: (List.replicate e '0' ++ digits)

/-- The spellings of numbers that are not finite. -/
structure SpecialNames where
  notANumber : String
  infinity : String

/-- Sign and special numbers, the same in every form. -/
def signed (names : SpecialNames) (finite : Float → String) (x : Float) : String :=
  if x.isNaN then names.notANumber
  else
    let text := if x.isInf then names.infinity else finite x
    if signBit x then "-" ++ text else text

/-- The shortest decimal: positional from `10 ^ -4` up to `10 ^ 16`, whole numbers with one zero
after the point. -/
def shortText (x : Float) : String :=
  signed ⟨"nan", "inf"⟩ (fun x =>
    if x == 0.0 then "0.0" else
    let s := shortest (Binary.ofFloat x)
    let digits := Nat.toDigits 10 s.digits
    let e := s.exponent + digits.length - 1
    if -4 ≤ e ∧ e < 16 then
      let text := positional digits e
      String.ofList (if text.contains '.' then text else text ++ ['.', '0'])
    else String.ofList (exponentForm digits e)) x

end ModelFormula.Decimal
