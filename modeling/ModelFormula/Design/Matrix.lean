import ModelFormula.Model.Fit
import ModelFormula.Term.Labels

/-!
# Design matrices

A design matrix has the columns of several fitted terms side by side, and knows which of its columns
belong to which term. Terms are told apart by their names: of two with one name the later takes the
place of the earlier. On new data the terms are evaluated anew, and the slices stay.
-/
namespace ModelFormula

namespace Part

def name : Part → Except Fault String
  | effect e => .ok e.name
  | group g => g.name

def data? (p : Part) (σ : Store) : Except Fault (Option Block) :=
  match p with
  | effect e => e.data? σ
  | group g => .ok (σ.part g.slot).data

def newData (p : Part) (source : DataSource) : Fit Block :=
  match p with
  | effect e => e.newData source
  | group g => g.newData source

def labels (p : Part) (σ : Store) : Except Fault (Option (List Literal)) := do
  match p with
  | effect e => e.labels σ
  | group g => return some ((← g.labels σ).map .text)

end Part

/-- The columns of a term, from the first up to one behind the last. -/
structure Slice where
  name : String
  start : Nat
  stop : Nat
deriving Repr

/-- The columns from one place up to another. -/
def Slice.columnText (start stop : Int) : String :=
  if 1 < stop - start then "columns: " ++ toString start ++ ":" ++ toString stop
  else "column: " ++ toString start

/-- The parts of a model by name, with their columns once they are evaluated. -/
structure DesignMatrix where
  parts : List (String × Part)
  slices : List Slice := []
  matrix : Option Block := none

namespace DesignMatrix

/-- A matrix that is not evaluated yet. -/
def ofParts (parts : List Part) : Except Fault DesignMatrix := do
  let named ← parts.mapM fun p => do return (← p.name, p)
  return { parts := named.foldl (fun acc (name, p) => Model.assign name p acc) [] }

/-- The number of columns of a block; what is not a matrix counts as one. -/
def columnCount (b : Block) : Nat :=
  match b.grid with
  | .matrix m => m.width
  | _ => 1

/-- Consecutive slices of the given widths. -/
def slicesFrom (start : Nat) : List (String × Nat) → List Slice
  | [] => []
  | (name, width) :: rest =>
    ⟨name, start, start + width⟩ :: slicesFrom (start + width) rest

/-- Stacks the data of the terms. -/
def evaluate (d : DesignMatrix) (σ : Store) : Except Fault DesignMatrix := do
  let blocks ← d.parts.mapM fun (name, p) => do
    match ← p.data? σ with
    | some b => return (name, b)
    | none => throw .noAttribute
  let matrix ← Block.stack (blocks.map (·.2))
  let slices := slicesFrom 0 (blocks.map fun (name, b) => (name, columnCount b))
  return { d with slices, matrix := some matrix }

/-- Evaluates the terms on new data; only an evaluated matrix can do so. -/
def evaluateNew (d : DesignMatrix) (source : DataSource) : Fit DesignMatrix := do
  if d.matrix.isNone then throw .unevaluatedMatrix
  let blocks ← d.parts.mapM fun (_, p) => p.newData source
  let matrix ← Block.stack blocks
  return { d with matrix := some matrix }

end DesignMatrix

/-- A table of numbers with a label for each column. -/
structure Table where
  columns : List Datum
  values : Block

namespace Table

/-- There must be as many labels as columns; without labels the columns are numbered. -/
def make (b : Block) (labels : Option (List Datum)) : Except Fault Table := do
  let some m := b.matrix? | throw .badValue
  let columns := labels.getD ((List.range m.width).map fun (i : Nat) => .int i)
  unless columns.length = m.width do throw .badValue
  return ⟨columns, ⟨b.cellType, .matrix m⟩⟩

end Table

namespace DesignMatrix

/-- All labels in order; terms without labels leave an empty one. -/
def labelData (d : DesignMatrix) (σ : Store) : Except Fault (List Datum) := do
  let labels ← d.parts.mapM fun (_, p) => p.labels σ
  return labels.flatMap fun
    | some ls => ls.map Datum.ofLiteral
    | none => [.null]

def table (d : DesignMatrix) (σ : Store) : Except Fault Table := do
  let labels ← d.labelData σ
  match d.matrix with
  | some b => Table.make b (some labels)
  | none => throw .noAttribute

end DesignMatrix

end ModelFormula
