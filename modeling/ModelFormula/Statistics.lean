import ModelFormula.Scalar
import ModelFormula.Value

/-!
# Statistics

Means, deviations and extremes of values. Those of a column leave out what is missing; those of a
block do not. The deviation divides by the number of observations.
-/
namespace ModelFormula.Statistics

def nan : Float := 0.0 / 0.0

/-- A cell as a number; what is missing is not a number. -/
def floatOf (x : Datum) : Except Fault Float :=
  match x with
  | .null => .ok nan
  | x => match x.float? with
    | some v => .ok v
    | none => .error .unsupported

/-- The numbers of a value. -/
def floats (v : Value) : Except Fault (List Float) :=
  match v with
  | .series c =>
    match c.type with
    | .plain _ => c.cells.mapM floatOf
    | _ => .error .unsupported
  | .array b => b.grid.cells.mapM floatOf
  | .datum (.list items) => do (← Value.blockOfList items).grid.cells.mapM floatOf
  | .datum .null => .error .unsupported
  | .datum d | .cell d => do return [← floatOf d]
  | _ => .error .unsupported

/-- What is missing counts as zero in a sum. -/
def present (xs : List Float) : List Float := xs.map fun x => if x.isNaN then 0.0 else x

def count (xs : List Float) : Float := ((xs.filter (!·.isNaN)).length).toFloat

/-- The sum over a column leaves out what is missing. -/
def sum (inSeries : Bool) (xs : List Float) : Float :=
  Scalar.sum (if inSeries then present xs else xs)

def meanOf (inSeries : Bool) (xs : List Float) : Float :=
  sum inSeries xs / if inSeries then count xs else xs.length.toFloat

def deviationOf (inSeries : Bool) (xs : List Float) : Float :=
  let m := meanOf inSeries xs
  let squares := xs.map fun x => (x - m) * (x - m)
  (sum inSeries squares / if inSeries then count xs else xs.length.toFloat).sqrt

def mean (v : Value) : Except Fault Datum := do
  return .float (meanOf v.isSeries (← floats v))

def deviation (v : Value) : Except Fault Datum := do
  return .float (deviationOf v.isSeries (← floats v))

/-- The extreme of some items by the given order. -/
def extremeOf {ε α : Type} (before : α → α → Except ε Bool) (none : ε) : List α → Except ε α
  | [] => .error none
  | x :: xs => xs.foldlM (fun best y => do return if ← before y best then y else best) x

def less (x y : Datum) : Except Fault Bool :=
  match x.less? y with
  | some b => .ok b
  | none => .error .unsupported

def extreme (before : Datum → Datum → Except Fault Bool) (v : Value) : Except Fault Datum := do
  match v with
  | .series c =>
    let cells := c.cells.filter (!·.isMissing)
    if cells.isEmpty then return .float nan
    match c.type with
    | .plain _ => extremeOf before .badValue cells
    | .category categories true =>
      let place (x : Datum) : Nat := (categories.findIdx? (· == x)).getD 0
      extremeOf (fun x y => before (.int (place x)) (.int (place y))) .badValue cells
    | _ => throw .unsupported
  | v =>
    let some b := ← v.block? | throw .unsupported
    let cells := b.grid.cells
    match cells.find? Datum.isMissing with
    | some x => return x
    | none => extremeOf before .badValue cells

def minimum (v : Value) : Except Fault Datum := extreme less v

def maximum (v : Value) : Except Fault Datum := extreme (fun x y => less y x) v

end ModelFormula.Statistics
