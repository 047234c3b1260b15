import ModelFormula.Datum.Arithmetic
import ModelFormula.Value

/-!
# Arithmetic on values

Operations on columns and blocks work cell by cell. Cells of numbers have a fixed width and never
fail on division; the sum and the product of truth values are "or" and "and". Cells of objects are
combined as plain data.
-/
namespace ModelFormula.Value

open CallExpr (Operator Sign)

/-- Powers that wrap around, by repeated squaring. -/
def powerWrap (x : Int) (n : Nat) : Int :=
  if n = 0 then 1
  else
    let half := powerWrap (Block.wrap (x * x)) (n / 2)
    if n % 2 = 1 then Block.wrap (half * x) else half
termination_by n
decreasing_by omega

def isComparison : Operator → Bool
  | .eq | .ne | .le | .lt | .ge | .gt => true
  | _ => false

def compareWith {α : Type} (lt : α → α → Bool) (eq : α → α → Bool) (op : Operator) (x y : α) :
    Bool :=
  match op with
  | .eq => eq x y
  | .ne => !eq x y
  | .lt => lt x y
  | .gt => lt y x
  | .le => lt x y || eq x y
  | .ge => lt y x || eq x y
  | _ => false

/-- The operation on two cells of numbers of one sort. -/
def numberCell (op : Operator) (d : CellType) (x y : Datum) : Except Fault Datum :=
  match d, op, x, y with
  | .bool, .add, .bool a, .bool b => .ok (.bool (a || b))
  | .bool, .mul, .bool a, .bool b => .ok (.bool (a && b))
  | .int, .add, .int m, .int n => .ok (.int (Block.wrap (m + n)))
  | .int, .sub, .int m, .int n => .ok (.int (Block.wrap (m - n)))
  | .int, .mul, .int m, .int n => .ok (.int (Block.wrap (m * n)))
  | .int, .pow, .int m, .int n =>
    if n < 0 then .error .badValue else .ok (.int (powerWrap m n.toNat))
  | .int, op, .int m, .int n => .ok (.bool (compareWith (· < ·) (· == ·) op m n))
  | .float, .add, .float a, .float b => .ok (.float (a + b))
  | .float, .sub, .float a, .float b => .ok (.float (a - b))
  | .float, .mul, .float a, .float b => .ok (.float (a * b))
  | .float, .div, .float a, .float b => .ok (.float (a / b))
  | .float, .pow, .float a, .float b => .ok (.float (Datum.floatPower a b))
  | .float, op, .float a, .float b => .ok (.bool (compareWith (· < ·) (· == ·) op a b))
  | _, _, _, _ => .error .unsupported

/-- The sort in which an operation on numbers is carried out. -/
def workingType (op : Operator) (d : CellType) : CellType :=
  match op, d with
  | .div, _ => .float
  | .add, .bool | .sub, .bool | .mul, .bool => .bool
  | _, .bool => .int
  | _, d => d

def resultType (op : Operator) (d : CellType) : CellType := if isComparison op then .bool else d

/-- The operation on two cells of objects. -/
def objectCell (op : Operator) (x y : Datum) : Except Fault Datum :=
  if x.isMissing || y.isMissing then
    .ok (if isComparison op then .bool (op == .ne) else .float (0.0 / 0.0))
  else Datum.binary op x y

/-- Pairs of cells; what is single is paired with all the others. -/
def pairGrid {α : Type} : Grid α → Grid α → Except Fault (Grid (α × α))
  | .deep [] [x], g => .ok (g.map fun y => (x, y))
  | g, .deep [] [y] => .ok (g.map fun x => (x, y))
  | .vector xs, .vector ys => (pairRow xs ys).map .vector
  | .matrix a, .matrix b =>
    if a.rows.length == b.rows.length then do
      return .matrix ⟨max a.width b.width, ← (a.rows.zip b.rows).mapM fun (r, s) => pairRow r s⟩
    else .error .badValue
  | .vector xs, .matrix b => do
    return .matrix ⟨max xs.length b.width, ← b.rows.mapM (pairRow xs ·)⟩
  | .matrix a, .vector ys => do
    return .matrix ⟨max a.width ys.length, ← a.rows.mapM (pairRow · ys)⟩
  | .deep shape xs, .deep shape' ys =>
    if shape == shape' then .ok (.deep shape (xs.zip ys)) else .error .badValue
  | _, _ => .error .badValue
where
  pairRow (xs ys : List α) : Except Fault (List (α × α)) :=
    match xs, ys with
    | [x], ys => .ok (ys.map fun y => (x, y))
    | xs, [y] => .ok (xs.map fun x => (x, y))
    | xs, ys => if xs.length == ys.length then .ok (xs.zip ys) else .error .badValue

def mapGridM {α β : Type} (f : α → Except Fault β) : Grid α → Except Fault (Grid β)
  | .vector xs => (xs.mapM f).map .vector
  | .matrix m => do return .matrix ⟨m.width, ← m.rows.mapM (·.mapM f)⟩
  | .deep shape xs => (xs.mapM f).map (.deep shape)

/-- Numbers meet a text or nothing: they differ, and have no order or arithmetic with it. -/
def mixedBlocks (op : Operator) (pairs : Grid (Datum × Datum)) : Except Fault Block :=
  match op with
  | .eq => .ok ⟨.bool, pairs.map fun _ => .bool false⟩
  | .ne => .ok ⟨.bool, pairs.map fun _ => .bool true⟩
  | _ => .error .unsupported

/-- A single cell that is no number. -/
def isLoneObject (b : Block) : Bool :=
  match b.cellType, b.grid with
  | .object, .deep [] _ => true
  | _, _ => false

/-- Numbers in one block and texts, or a single cell that is no number, in the other. -/
def numbersMeet (a b : Block) : Bool :=
  a.cellType.isNumeric && (b.cellType == .text || isLoneObject b)

def binaryBlocks (op : Operator) (a b : Block) : Except Fault Block := do
  let mixed := numbersMeet a b || numbersMeet b a
  if mixed && !isComparison op then throw .unsupported
  let pairs ← pairGrid a.grid b.grid
  if mixed then return ← mixedBlocks op pairs
  match a.cellType.join b.cellType with
  | .text | .object =>
    let cells ← mapGridM (fun (x, y) => objectCell op x y) pairs
    return ⟨resultType op .object, cells⟩
  | d =>
    let d := workingType op d
    let cells ← mapGridM (fun (x, y) =>
      numberCell op d (Block.convert d x) (Block.convert d y)) pairs
    return ⟨resultType op d, cells⟩

/-- Categories are compared with each other by their declared order, if they have one. -/
def categoryCell (op : Operator) (categories : List Datum) (ordered : Bool) (x y : Datum) :
    Except Fault Datum :=
  match op with
  | .eq | .ne =>
    if x.isMissing || y.isMissing then .ok (.bool (op == .ne)) else Datum.binary op x y
  | op =>
    if !(isComparison op && ordered) then .error .unsupported
    else match categories.findIdx? (· == x), categories.findIdx? (· == y) with
      | some i, some j => .ok (.bool (compareWith (fun a b => a < b) (· == ·) op i j))
      | _, _ => .ok (.bool false)

/-- A categorical column with a single value, which must be a category to be in order with it. -/
def categoryWithDatum (op : Operator) (flip : Bool) (c : Column) (categories : List Datum)
    (ordered : Bool) (d : Datum) : Except Fault Value := do
  let known := categories.any (· == d)
  unless op == .eq || op == .ne || (known && ordered && isComparison op) do throw .unsupported
  let cells ← c.cells.mapM fun x =>
    if flip then categoryCell op categories ordered d x else categoryCell op categories ordered x d
  return .series ⟨.plain .bool, cells⟩

/-- Two categorical columns must have the same categories. -/
def categoryWithCategory (op : Operator) (a b : Column) (categories others : List Datum)
    (ordered : Bool) : Except Fault Value := do
  let agree := categories.length == others.length &&
    if ordered then Datum.same (.list categories) (.list others)
    else categories.all fun x => others.any (· == x)
  unless agree do throw .unsupported
  let cells ← (a.cells.zip b.cells).mapM fun (x, y) => categoryCell op categories ordered x y
  return .series ⟨.plain .bool, cells⟩

/-- Dates, and values that are no data, only differ from everything else. -/
def onlyDiffers (op : Operator) (height : Option Nat) : Except Fault Value :=
  let answer (b : Bool) : Value :=
    match height with
    | some n => .series ⟨.plain .bool, List.replicate n (.bool b)⟩
    | none => .datum (.bool b)
  match op with
  | .eq => .ok (answer false)
  | .ne => .ok (answer true)
  | _ => .error .unsupported

/-- A block as a column if a column took part, else as it is; a single cell stands alone. -/
def wrapResult (asSeries : Bool) (b : Block) : Value :=
  match asSeries, b.grid with
  | true, .vector xs => .series ⟨.plain b.cellType, xs⟩
  | _, .deep [] [x] => .cell x
  | _, _ => .array b

def seriesHeight? : Value → Option Nat
  | series c => some c.cells.length
  | _ => none

/-- How many cells a list or an array has along its first axis. -/
def listHeight? : Value → Option Nat
  | datum (.list xs) => some xs.length
  | array ⟨_, .vector xs⟩ => some xs.length
  | array ⟨_, .matrix m⟩ => some m.rows.length
  | _ => none

/-- A column is only compared with as many values as it has, and a categorical one with a list only
for equality. -/
def checkColumnWithList (op : Operator) (c : Column) (v : Value) : Except Fault Unit :=
  match listHeight? v with
  | none => .ok ()
  | some n =>
    if isComparison op && n != c.cells.length then .error .badValue
    else match c.type with
      | .category _ _ => if op == .eq || op == .ne then .ok () else .error .unsupported
      | _ => .ok ()

def binary (op : Operator) (a b : Value) : Except Fault Value := do
  if let .series c := a then checkColumnWithList op c b
  if let .series c := b then checkColumnWithList op c a
  match a, b with
  | .datum x, .datum y => return .datum (← Datum.binary op x y)
  | .series c, .datum d | .series c, .cell d =>
    if let .category categories ordered := c.type then
      return ← categoryWithDatum op false c categories ordered d
  | .datum d, .series c | .cell d, .series c =>
    if let .category categories ordered := c.type then
      return ← categoryWithDatum op true c categories ordered d
  | .series c, .series c' =>
    match c.type, c'.type with
    | .category categories ordered, .category others _ =>
      return ← categoryWithCategory op c c' categories others ordered
    | .category _ _, _ | _, .category _ _ =>
      unless op == .eq || op == .ne do throw .unsupported
    | .date, _ | _, .date => return ← onlyDiffers op (some c.cells.length)
    | _, _ => pure ()
  | _, _ => pure ()
  let height := (seriesHeight? a).or (seriesHeight? b)
  let isDate : Value → Bool | .series ⟨.date, _⟩ => true | _ => false
  if isDate a || isDate b then return ← onlyDiffers op height
  match ← a.block?, ← b.block? with
  | some x, some y => return wrapResult (a.isSeries || b.isSeries) (← binaryBlocks op x y)
  | _, _ => onlyDiffers op height

/-- A sign on the cells of a column; truth values are negated as such. -/
def signCell (sign : Sign) (d : CellType) (inSeries : Bool) (x : Datum) : Except Fault Datum :=
  match d, sign, x with
  | .bool, .minus, .bool b => if inSeries then .ok (.bool !b) else .error .unsupported
  | .bool, .plus, x => if inSeries then .ok x else .error .unsupported
  | .int, .minus, .int n => .ok (.int (Block.wrap (-n)))
  | .object, sign, x => x.unary sign
  | .text, _, _ => .error .unsupported
  | _, .minus, .float v => .ok (.float (-v))
  | _, _, x => .ok x

def unary (sign : Sign) (a : Value) : Except Fault Value := do
  match a with
  | .datum d => return .datum (← d.unary sign)
  | .cell d => return .cell (← d.unary sign)
  | .series c =>
    match c.type with
    | .plain d => return .series ⟨.plain d, ← c.cells.mapM (signCell sign d true)⟩
    | _ => throw .unsupported
  | .array b => return .array ⟨b.cellType, ← mapGridM (signCell sign b.cellType false) b.grid⟩
  | _ => throw .unsupported

end ModelFormula.Value
