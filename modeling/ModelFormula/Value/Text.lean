import ModelFormula.Value

/-!
# Text of blocks

A vector in brackets, its cells padded to one width. Floating point numbers show at most eight
places, and a whole one ends in its point; their points stand below each other.
-/
namespace ModelFormula.Value

def blanks (n : Nat) : String := String.ofList (List.replicate n ' ')

/-- The parts of a decimal before and behind the point, with at most eight places. -/
def decimalParts (x : Float) : String × String :=
  let text := Decimal.shortText x
  match text.splitOn "." with
  | [whole, places] =>
    if places == "0" then (whole, "")
    else if places.length ≤ 8 then (whole, places)
    else
      let (num, den) := (Decimal.Binary.ofFloat x).quotient
      let scaled := Decimal.roundDiv (num * Nat.pow 10 8) den
      let digits := Decimal.padLeft 9 '0' (Nat.toDigits 10 scaled)
      let front := digits.take (digits.length - 8)
      let back := ((digits.drop (digits.length - 8)).reverse.dropWhile (· == '0')).reverse
      (String.ofList ((if x < 0.0 then ['-'] else []) ++ front), String.ofList back)
  | _ => (text, "")

def floatsText (xs : List Float) : String :=
  let parts := xs.map decimalParts
  let left := (parts.map (·.1.length)).foldl max 0
  let right := (parts.map (·.2.length)).foldl max 0
  let cell (p : String × String) : String :=
    blanks (left - p.1.length) ++ p.1 ++ "." ++ p.2 ++ blanks (right - p.2.length)
  "[" ++ " ".intercalate (parts.map cell) ++ "]"

def cellsText (cells : List Datum) : String :=
  match cells.mapM fun | .float x => some x | _ => none with
  | some xs => floatsText xs
  | none =>
    let texts := cells.map Datum.quoted
    let width := (texts.map String.length).foldl max 0
    "[" ++ " ".intercalate (texts.map fun s => blanks (width - s.length) ++ s) ++ "]"

end ModelFormula.Value
