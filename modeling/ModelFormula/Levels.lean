import ModelFormula.Datum.Sorted
import ModelFormula.Value

/-!
# Levels

The levels of a column are its distinct values in increasing order. A cell is coded by the row of a
contrast matrix at the place of its level, which is found by binary search.
-/
namespace ModelFormula.Levels

/-- The order among levels: what is not a number comes last. -/
def below (x y : Datum) : Except Fault Bool :=
  match x, y with
  | .float a, .float b => .ok (a < b || (b.isNaN && !a.isNaN))
  | x, .float b => if b.isNaN then .ok true else order x (.float b)
  | .float a, y => if a.isNaN then .ok false else order (.float a) y
  | x, y => order x y
where
  order (x y : Datum) : Except Fault Bool :=
    match x.less? y with
    | some r => .ok r
    | none => .error .unsupported

/-- Puts a value in its place; an equal one is there only once. -/
def insert (levels : List Datum) (x : Datum) : Except Fault (List Datum) :=
  match levels with
  | [] => .ok [x]
  | y :: rest => do
    if ← below x y then return x :: y :: rest
    if ← below y x then return y :: (← insert rest x)
    return y :: rest

def ofCells (cells : List Datum) : Except Fault (List Datum) := cells.foldlM insert []

/-- The levels of a value. -/
def ofValue (x : Value) : Except Fault (List Datum) := do
  match ← x.block? with
  | some b => ofCells b.grid.cells
  | none => throw .unsupported

/-- The first place between two bounds whose level does not lie below the key. -/
def search (levels : Array Datum) (key : Datum) (low high : Nat) : Except Fault Nat :=
  if _ordered : low < high then
    let mid := (low + high) / 2
    match levels[mid]? with
    | some level => do
      if ← below level key then search levels key (mid + 1) high else search levels key low mid
    | none => .ok low
  else .ok low
termination_by high - low
decreasing_by all_goals omega

/-- The first place whose level does not lie below the key, in a list that is taken to be sorted. -/
def lowerBound (levels : List Datum) (key : Datum) : Except Fault Nat :=
  search levels.toArray key 0 levels.length

/-- The row of a contrast matrix with the given number. -/
def row (c : ContrastMatrix) (i : Nat) : Except Fault (List Datum) :=
  match c.rows[i]? with
  | some r => .ok r
  | none => .error .outOfRange

/-- Rows in the arrangement of the cells that they code. -/
def arrange (shape : List Nat) (width : Nat) (rows : List (List Datum)) : Grid Datum :=
  match shape with
  | [] => .vector rows.flatten
  | [_] => .matrix ⟨width, rows⟩
  | shape => .deep (shape ++ [width]) rows.flatten

/-- Every cell coded by the row of its level. -/
def code (c : ContrastMatrix) (levels : List Datum) (x : Block) : Except Fault Block := do
  let places ← x.grid.cells.mapM (lowerBound levels)
  let rows ← places.mapM (row c)
  return ⟨c.matrix.cellType, arrange x.shape c.width rows⟩

end ModelFormula.Levels
