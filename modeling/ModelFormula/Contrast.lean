import ModelFormula.Block

/-!
# Contrast matrices

A contrast matrix has one row for each level of a factor and one labelled column for each direction
that it codes. Treatment coding compares every level with a reference level. Sum coding compares the
levels with their mean and omits one of them. Both can also include the intercept.
-/
namespace ModelFormula

structure ContrastMatrix where
  matrix : Block
  labels : List String
deriving Inhabited

namespace ContrastMatrix

def width (c : ContrastMatrix) : Nat :=
  match c.matrix.grid with
  | .matrix m => m.width
  | _ => 0

def rows (c : ContrastMatrix) : List (List Datum) :=
  match c.matrix.grid with
  | .matrix m => m.rows
  | _ => []

/-- A matrix of numbers that has as many columns as there are labels, all of which are texts. -/
def make (matrix : Option Block) (labels : Datum) : Except Fault ContrastMatrix := do
  let some block := matrix | throw .contrastMatrix
  let .matrix m := block.grid | throw .contrastMatrix
  unless block.cellType = .int || block.cellType = .float do throw .contrastMatrix
  let .list items := labels | throw .contrastLabels
  let some texts := items.mapM Datum.text? | throw .contrastLabelItems
  unless m.width = texts.length do throw .contrastShape
  return ⟨block, texts⟩

/-- An entry of a contrast matrix; a whole number of the floating point format ends in a point. -/
def entryText : Datum → String
  | .float x =>
    let s := Decimal.shortText x
    if s.endsWith ".0" then (s.dropEnd 1).toString else s
  | d => d.plain

/-- Rows in brackets, their entries as wide as the widest. -/
def matrixText (c : ContrastMatrix) : String :=
  let texts := c.rows.map (·.map entryText)
  if texts.flatten.isEmpty then "[]"
  else
    let width := (texts.flatten.map String.length).foldl max 0
    let padded (s : String) : String := String.ofList (List.replicate (width - s.length) ' ') ++ s
    let row (xs : List String) : String := "[" ++ " ".intercalate (xs.map padded) ++ "]"
    "[" ++ "\n ".intercalate (texts.map row) ++ "]"

def text (c : ContrastMatrix) : String :=
  "ContrastMatrix\nMatrix:\n" ++ c.matrixText ++ "\n\nLabels:\n" ++ ", ".intercalate c.labels

end ContrastMatrix

/-- The level that a contrast singles out. -/
inductive Contrast.Choice where
  | level (d : Datum)
  /-- Something that is no plain value, by the name of its type. It equals no level, and whether a
  whole column does cannot be said. -/
  | foreign (typeName : String) (isColumn : Bool)
deriving Inhabited

/-- How the levels of a factor are coded. -/
inductive Contrast where
  | treatment (reference : Contrast.Choice)
  | sum (omitted : Contrast.Choice)
deriving Inhabited

namespace Contrast

/-- The level that a contrast takes if none is given. -/
def Choice.default : Choice := .level .null

def unitRow (n j : Nat) : List Int := (List.range n).map fun k => if k = j then 1 else 0

/-- The rows of the unit matrix. -/
def unitRows (n : Nat) : List (List Int) := (List.range n).map (unitRow n)

/-- The unit matrix with a further row, the same in all places, put in at the given place. -/
def unitRowsWith (n place : Nat) (entry : Int) : List (List Int) :=
  (unitRows n).take place ++ List.replicate n entry :: (unitRows n).drop place

def labelsOf (levels : List Datum) : List String := levels.map Datum.plain

def withoutIndex (levels : List Datum) (i : Nat) : List Datum := levels.eraseIdx i

/-- The place of the reference level, by default the first. -/
def referenceIndex (reference : Choice) (levels : List Datum) : Except Fault Nat :=
  match reference with
  | .level .null => .ok 0
  | .level r => match levels.findIdx? (· == r) with
    | some i => .ok i
    | none => .error .referenceLevel
  | .foreign _ isColumn => .error (if isColumn then .badValue else .referenceLevel)

/-- The place of the omitted level, by default the last. -/
def omittedIndex (omitted : Choice) (levels : List Datum) : Except Fault Nat :=
  match omitted with
  | .level .null => .ok (levels.length - 1)
  | .level r => match levels.findIdx? (· == r) with
    | some i => .ok i
    | none => .error .badValue
  | .foreign _ _ => .error .badValue

/-- One column for each level. -/
def treatmentFull (levels : List Datum) : ContrastMatrix :=
  ⟨Block.ofInts (unitRows levels.length) levels.length, labelsOf levels⟩

/-- One column for each level but the reference. -/
def treatmentReduced (reference : Choice) (levels : List Datum) : Except Fault ContrastMatrix := do
  let i ← referenceIndex reference levels
  if levels.isEmpty then throw .badValue
  let n := levels.length - 1
  return ⟨(Block.ofInts (unitRowsWith n i 0) n).convertTo .float, labelsOf (withoutIndex levels i)⟩

/-- One column for each level but the omitted one, whose row is all minus one. -/
def sumReduced (omitted : Choice) (levels : List Datum) : Except Fault ContrastMatrix := do
  let i ← omittedIndex omitted levels
  if levels.isEmpty then throw .badValue
  let n := levels.length - 1
  return ⟨Block.ofInts (unitRowsWith n i (-1)) n, labelsOf (withoutIndex levels i)⟩

/-- The columns of sum coding after a column of ones for the mean. -/
def sumFull (omitted : Choice) (levels : List Datum) : Except Fault ContrastMatrix := do
  let i ← omittedIndex omitted levels
  if levels.isEmpty then throw .badValue
  let n := levels.length - 1
  let rows := (unitRowsWith n i (-1)).map (1 :: ·)
  return ⟨Block.ofInts rows (n + 1), "mean" :: labelsOf (withoutIndex levels i)⟩

/-- The contrast matrix over the levels, with or without the intercept. -/
def code (c : Contrast) (spansIntercept : Bool) (levels : List Datum) :
    Except Fault ContrastMatrix :=
  match c, spansIntercept with
  | treatment _, true => .ok (treatmentFull levels)
  | treatment r, false => treatmentReduced r levels
  | sum o, true => sumFull o levels
  | sum o, false => sumReduced o levels

end Contrast

end ModelFormula
