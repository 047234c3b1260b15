import ModelFormula.Block

/-!
# Columns and frames

A column of data has cells of one sort, or it is categorical, with declared categories that may be
ordered, or it holds dates. A frame has named columns of one height; a name may be a number. Where a
frame is expected a caller may also hand over plain data, in which columns are looked up by name.
-/
namespace ModelFormula

inductive ColumnType where
  | plain (d : CellType)
  | category (categories : List Datum) (ordered : Bool)
  | date
deriving Inhabited

structure Column where
  type : ColumnType
  cells : List Datum
deriving Inhabited

namespace Column

def isNumeric (c : Column) : Bool :=
  match c.type with
  | .plain d => d.isNumeric
  | _ => false

def isText : Datum → Bool
  | .text _ => true
  | _ => false

/-- Objects that are all texts. -/
def isString (c : Column) : Bool :=
  match c.type with
  | .plain .object => c.cells.all isText
  | _ => false

def isCategory (c : Column) : Bool :=
  match c.type with
  | .category _ _ => true
  | _ => false

/-- The sort that the cells of a categorical column have by themselves; a missing one turns whole
numbers into floating point numbers. -/
def categoryType (categories cells : List Datum) : CellType :=
  let isInt : Datum → Bool | .int _ => true | _ => false
  let isFloat : Datum → Bool | .float _ => true | _ => false
  let isBool : Datum → Bool | .bool _ => true | _ => false
  let missing := cells.any Datum.isMissing
  if categories.isEmpty then .object
  else if categories.all isInt then (if missing then .float else .int)
  else if categories.all fun c => isInt c || isFloat c then .float
  else if categories.all isBool && !missing then .bool
  else .object

/-- The cells as a vector. -/
def values (c : Column) : Block :=
  match c.type with
  | .plain d => ⟨d, .vector c.cells⟩
  | .category categories _ =>
    let d := categoryType categories c.cells
    let cells := c.cells.map fun x =>
      match d, x with
      | .float, .null => .float (0.0 / 0.0)
      | d, x => Block.convert d x
    ⟨d, .vector cells⟩
  | .date => ⟨.object, .vector c.cells⟩

/-- A categorical column; what is in none of the categories is missing. -/
def ofCategories (cells categories : List Datum) (ordered : Bool) : Column :=
  ⟨.category categories ordered, cells.map fun x => if categories.any (· == x) then x else .null⟩

/-- The rows that are wanted. -/
def select (keep : List Bool) (c : Column) : Column :=
  { c with cells := (c.cells.zip keep).filterMap fun (x, k) => if k then some x else none }

end Column

structure Frame where
  height : Nat
  columns : List (Literal × Column)
deriving Inhabited

namespace Frame

def column? (f : Frame) (name : Literal) : Option Column :=
  (f.columns.find? (·.1 == name)).map (·.2)

/-- The columns with the given names. -/
def restrict (f : Frame) (names : List Literal) : Frame :=
  { f with columns := f.columns.filter fun (name, _) => names.contains name }

/-- For every row, whether a cell is missing in it. -/
def incomplete (f : Frame) : List Bool :=
  (List.range f.height).map fun i =>
    f.columns.any fun (_, c) => (c.cells[i]?.map Datum.isMissing).getD false

def select (keep : List Bool) (f : Frame) : Frame :=
  ⟨(keep.filter id).length, f.columns.map fun (name, c) => (name, c.select keep)⟩

end Frame

/-- A frame, or the plain data that a caller gave in its place. -/
inductive DataSource where
  | frame (f : Frame)
  | plain (d : Datum)
deriving Inhabited

namespace DataSource

/-- Only a frame has rows. -/
def height : DataSource → Except Fault Nat
  | frame f => .ok f.height
  | plain _ => .error .noAttribute

/-- The length of the index of the rows. Lists and texts have an index of another sort, which has no
length. -/
def indexLength : DataSource → Except Fault Nat
  | frame f => .ok f.height
  | plain (.list _) | plain (.text _) => .error .unsupported
  | plain _ => .error .noAttribute

end DataSource

end ModelFormula
