import ModelFormula.Datum
import ModelFormula.Error

/-!
# Blocks of cells

A block is a vector, a matrix given by its rows, or a deeper array, and all its cells are of one
sort. Integers have 64 bits and wrap around. Where blocks of different sorts meet, truth values
become integers, integers become floating point numbers, numbers become texts, and anything becomes
an object.
-/
namespace ModelFormula

/-- Rows of one width. -/
structure Matrix (α : Type) where
  width : Nat
  rows : List (List α)
deriving Repr, Inhabited

namespace Matrix

variable {α β γ : Type}

def height (m : Matrix α) : Nat := m.rows.length

def map (f : α → β) (m : Matrix α) : Matrix β := ⟨m.width, m.rows.map (·.map f)⟩

/-- A vector as a matrix of one column. -/
def ofVector (xs : List α) : Matrix α := ⟨1, xs.map fun x => [x]⟩

/-- One column; rows that are too short have no entry in it. -/
def column (m : Matrix α) (j : Nat) : List α := m.rows.filterMap (·[j]?)

/-- All products of an entry of the first row with one of the second, which varies faster. -/
def productRow (mul : α → β → γ) (xs : List α) (ys : List β) : List γ :=
  xs.flatMap fun x => ys.map (mul x)

/-- The products of the columns of two matrices, row by row. -/
def productWith (mul : α → β → γ) (a : Matrix α) (b : Matrix β) : Matrix γ :=
  ⟨a.width * b.width, List.zipWith (productRow mul) a.rows b.rows⟩

/-- The columns of the second matrix after those of the first. -/
def beside (a b : Matrix α) : Matrix α :=
  ⟨a.width + b.width, List.zipWith (· ++ ·) a.rows b.rows⟩

end Matrix

/-- The sort of the cells of a block. -/
inductive CellType where
  | bool | int | float | text | object
deriving DecidableEq, Repr, Inhabited

namespace CellType

/-- Between two sorts, the one that can hold both. -/
def join : CellType → CellType → CellType
  | object, _ | _, object => object
  | text, _ | _, text => text
  | float, _ | _, float => float
  | int, _ | _, int => int
  | bool, bool => bool

def letter : CellType → String
  | bool => "b"
  | int => "i"
  | float => "f"
  | text => "U"
  | object => "O"

def isNumeric : CellType → Bool
  | text | object => false
  | _ => true

end CellType

/-- The arrangement of cells. -/
inductive Grid (α : Type) where
  | vector (xs : List α)
  | matrix (m : Matrix α)
  /-- Any other number of dimensions; the cells come row by row. -/
  | deep (shape : List Nat) (xs : List α)
deriving Repr, Inhabited

namespace Grid

variable {α β : Type}

def map (f : α → β) : Grid α → Grid β
  | vector xs => vector (xs.map f)
  | matrix m => matrix (m.map f)
  | deep shape xs => deep shape (xs.map f)

def shape : Grid α → List Nat
  | vector xs => [xs.length]
  | matrix m => [m.height, m.width]
  | deep shape _ => shape

def cells : Grid α → List α
  | vector xs => xs
  | matrix m => m.rows.flatten
  | deep _ xs => xs

def rank (g : Grid α) : Nat := g.shape.length

/-- The length of the first dimension; a single cell has none. -/
def length? (g : Grid α) : Option Nat := g.shape.head?

end Grid

structure Block where
  cellType : CellType
  grid : Grid Datum
deriving Inhabited

namespace Block

/-- Integers wrap around at 64 bits. -/
def wrap (n : Int) : Int := Int.bmod n (Nat.pow 2 64)

/-- A cell as one of the given sort. -/
def convert (d : CellType) (x : Datum) : Datum :=
  match d with
  | .int => (x.int?.map .int).getD x
  | .float => (x.float?.map .float).getD x
  | .text => .text x.plain
  | _ => x

def convertTo (d : CellType) (b : Block) : Block := ⟨d, b.grid.map (convert d)⟩

/-- The product of two cells of the given sort. -/
def mulCell (d : CellType) (x y : Datum) : Datum :=
  match d, x, y with
  | .bool, .bool a, .bool b => .bool (a && b)
  | .int, .int m, .int n => .int (wrap (m * n))
  | .float, .float a, .float b => .float (a * b)
  | _, _, _ => .null

def ofInts (rows : List (List Int)) (width : Nat) : Block :=
  ⟨.int, .matrix ⟨width, rows.map (·.map .int)⟩⟩

def ofFloatRows (width : Nat) (rows : List (List Float)) : Block :=
  ⟨.float, .matrix ⟨width, rows.map (·.map .float)⟩⟩

def ofFloats (xs : List Float) : Block := ⟨.float, .vector (xs.map .float)⟩

def shape (b : Block) : List Nat := b.grid.shape

def rank (b : Block) : Nat := b.grid.rank

/-- A vector counts as one column. -/
def matrix? (b : Block) : Option (Matrix Datum) :=
  match b.grid with
  | .vector xs => some (.ofVector xs)
  | .matrix m => some m
  | .deep _ _ => none

end Block

end ModelFormula
