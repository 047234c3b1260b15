import ModelFormula.Value.Arithmetic

/-!
# Products of blocks

Blocks are stacked side by side, and the columns of two blocks are multiplied with each other row by
row, in all combinations. Vectors count as one column.
-/
namespace ModelFormula.Block

/-- Cells of the given shape in their arrangement. -/
def gridOf (shape : List Nat) (cells : List Datum) : Grid Datum :=
  match shape with
  | [_] => .vector cells
  | [n, width] =>
    .matrix ⟨width, (List.range n).map fun i => (cells.drop (i * width)).take width⟩
  | shape => .deep shape cells

/-- The columns of a block, of which a single cell has none. -/
def columns (b : Block) : Except Fault (List Block) :=
  match b.grid with
  | .vector _ => .ok [b]
  | .matrix m => .ok ((List.range m.width).map fun j => ⟨b.cellType, .vector (m.column j)⟩)
  | .deep (n :: width :: rest) cells =>
    let size := rest.foldl (· * ·) 1
    .ok ((List.range width).map fun j =>
      let picked := (List.range n).flatMap fun i => (cells.drop ((i * width + j) * size)).take size
      ⟨b.cellType, gridOf (n :: rest) picked⟩)
  | .deep _ _ => .error .outOfRange

/-- A block as the matrix that it is when stacked. -/
def stacked (b : Block) : Except Fault (Matrix Datum) :=
  match b.grid with
  | .vector xs => .ok (.ofVector xs)
  | .matrix m => .ok m
  | .deep [] [x] => .ok (.ofVector [x])
  | .deep _ _ => .error .badValue

def joinAll (bs : List Block) : CellType :=
  match bs with
  | [] => .float
  | b :: rest => rest.foldl (fun d b => d.join b.cellType) b.cellType

/-- Blocks of one height side by side; there must be at least one. -/
def stack (bs : List Block) : Except Fault Block := do
  let d := joinAll bs
  match ← bs.mapM fun b => stacked (b.convertTo d) with
  | [] => throw .badValue
  | m :: rest =>
    unless rest.all (·.height == m.height) do throw .badValue
    return ⟨d, .matrix (rest.foldl Matrix.beside m)⟩

/-- Numbers are multiplied entry by entry. -/
def numericProduct? (a b : Block) : Option Block := do
  let d := a.cellType.join b.cellType
  guard d.isNumeric
  let m ← (a.convertTo d).matrix?
  let n ← (b.convertTo d).matrix?
  guard (m.height == n.height && 0 < m.width && 0 < n.width)
  return ⟨d, .matrix (m.productWith (mulCell d) n)⟩

/-- All products of a column of the first block with one of the second, which varies faster. -/
def interact (a b : Block) : Except Fault Block := do
  match numericProduct? a b with
  | some p => return p
  | none =>
    let xs ← a.columns
    let ys ← b.columns
    stack (← (xs.flatMap fun x => ys.map fun y => (x, y)).mapM fun (x, y) =>
      Value.binaryBlocks .mul x y)

/-- The products of several blocks, the last of which varies fastest. -/
def interactAll : List Block → Except Fault Block
  | [] => .error .unsupported
  | b :: rest => rest.foldlM interact b

/-- The columns of a block for every column of a factor, which varies slower. Both must be vectors
or matrices of one height, and have at least one row. -/
def grouped (factor b : Block) : Except Fault Block := do
  let some m := factor.matrix? | throw .badValue
  let some n := b.matrix? | throw .badValue
  unless m.height == n.height && 0 < m.height do throw .badValue
  let d := factor.cellType.join b.cellType
  if d.isNumeric then
    let m := m.map (convert d)
    let n := n.map (convert d)
    return ⟨d, .matrix (m.productWith (mulCell d) n)⟩
  let cells (p : Datum × Datum) : Except Fault Datum := Value.objectCell .mul p.1 p.2
  let rows ← (m.productWith (fun x y => (x, y)) n).rows.mapM (·.mapM cells)
  return ⟨d, .matrix ⟨m.width * n.width, rows⟩⟩

end ModelFormula.Block
