import ModelFormula.Column
import ModelFormula.Contrast

/-!
# Values

What call expressions evaluate to: plain data, columns, blocks, single cells of a block, and the
special results of the library's own functions, which tell the fitting of a model what they are.
Functions and modules are values too, so that names can be bound to them.
-/
namespace ModelFormula

/-- Functions with a memory of the first column that they see. -/
inductive Stateful where
  | center | scale | spline | polynomial
deriving DecidableEq, Repr

/-- The functions that formulas can call. -/
inductive Function where
  -- Elementwise.
  | log | exp | sqrt | abs | power
  -- Arithmetic on whole columns.
  | double | pick | toArray | toList | twoColumns | sum | increment | negate
  -- Functions that tell what a column is.
  | identity | categorical | sumCoded | treatmentCoded | binary | proportion | offset
  | stateful (s : Stateful)
deriving DecidableEq, Repr

/-- What the argument of an offset is. -/
inductive Offset where
  | variable (values : Block)
  | constant (x : Datum) (size : Option Nat)
deriving Inhabited

namespace Offset

def isConstant : Offset → Bool
  | .variable _ => false
  | .constant _ _ => true

def size? : Offset → Option Nat
  | .variable _ => none
  | .constant _ size => size

/-- A constant is repeated for all rows, whose number must be known. -/
def block : Offset → Except Fault Block
  | .variable values => .ok values
  | .constant x (some n) => .ok (Block.ofFloatRows 1 (List.replicate n [x.float?.getD 0.0]))
  | .constant _ none => .error .unsupported

/-- Tells the number of rows. -/
def resize (n : Nat) : Offset → Offset
  | .variable values => .variable values
  | .constant x _ => .constant x (some n)

end Offset

/-- A column with the levels and the contrast that it is to be coded by. -/
structure CategoricalBox where
  data : Block
  contrast : Option Contrast
  levels : Datum
deriving Inhabited

/-- Successes out of trials. -/
structure Proportion where
  successes : Block
  trials : Block
  /-- The same number of trials in every row. -/
  constant : Bool
deriving Inhabited

/-- Successes and trials side by side. -/
def Proportion.block (p : Proportion) : Block :=
  let d := p.successes.cellType.join p.trials.cellType
  let pairs := (p.successes.grid.cells.zip p.trials.grid.cells).map fun (s, t) =>
    [Block.convert d s, Block.convert d t]
  ⟨d, .matrix ⟨2, pairs⟩⟩

inductive Value where
  | datum (d : Datum)
  /-- A single cell of a block. -/
  | cell (d : Datum)
  | series (c : Column)
  | array (b : Block)
  | box (b : CategoricalBox)
  | proportion (p : Proportion)
  | offset (o : Offset)
  | contrast (c : Contrast)
  /-- A contrast that is still to be given its level. -/
  | contrastType (isSum : Bool)
  | function (f : Function)
  | module (members : List (String × Value))
deriving Inhabited

namespace Value

/-- The name of the type of a value. -/
def typeName : Value → String
  | datum d => d.className
  | cell (.int _) => "numpy.int64"
  | cell (.bool _) => "numpy.bool_"
  | cell _ => "numpy.float64"
  | series _ => "pandas.core.series.Series"
  | array _ => "numpy.ndarray"
  | box _ => "formulae.categorical.CategoricalBox"
  | proportion _ => "formulae.transforms.Proportion"
  | offset _ => "formulae.transforms.Offset"
  | contrast (.treatment _) => "formulae.categorical.Treatment"
  | contrast (.sum _) => "formulae.categorical.Sum"
  | contrastType _ => "abc.ABCMeta"
  | function (.stateful _) => "type"
  | function _ => "function"
  | module _ => "types.SimpleNamespace"

/-- The class that messages show for a value. -/
def className (v : Value) : String := classText v.typeName

/-- The name of the type without the path of its module. -/
def shortTypeName (v : Value) : String := (v.typeName.splitOn ".").getLastD ""

/-- A cell of a block, or the plain value. -/
def datum? : Value → Option Datum
  | datum d | cell d => some d
  | _ => none

/-- Numbers in a column, a block or a cell. -/
def isNumeric : Value → Bool
  | series c => c.isNumeric
  | array b => b.cellType.isNumeric
  | cell _ => true
  | _ => false

/-- Texts in a column or a block. -/
def isString : Value → Bool
  | series c => c.isString
  | array ⟨.object, g⟩ => g.cells.all Column.isText
  | array ⟨.text, _⟩ => true
  | _ => false

def isCategory : Value → Bool
  | series c => c.isCategory
  | _ => false

def isSeries : Value → Bool
  | series _ => true
  | _ => false

/-- Whether a value counts as true; columns and blocks of several cells do not say. -/
def truthy : Value → Except Fault Bool
  | datum d | cell d => .ok d.truthy
  | series _ => .error .badValue
  | array b =>
    match b.grid.cells with
    | [d] => .ok d.truthy
    | [] => .ok false
    | _ => .error .badValue
  | _ => .ok true

/-- The sort of a plain value as a single cell. -/
def cellTypeOf : Datum → CellType
  | .bool _ => .bool
  | .int _ => .int
  | .float _ => .float
  | _ => .object

/-- The sort that all the given cells can have; one text makes texts of the numbers beside it. -/
def cellTypeOfAll (cells : List Datum) : CellType :=
  match cells with
  | [] => .float
  | x :: xs => xs.foldl (fun d y => d.join (sort y)) (sort x)
where
  sort : Datum → CellType
    | .text _ => .text
    | d => cellTypeOf d

/-- A list as a block: its items are plain, or lists of one length. -/
def blockOfList (items : List Datum) : Except Fault Block :=
  let isList : Datum → Bool | .list _ => true | _ => false
  let nestedOnce (rows : List (List Datum)) : Except Fault Block :=
    let width := (rows.head?.map List.length).getD 0
    if rows.all (·.length == width) then
      let d := cellTypeOfAll rows.flatten
      .ok ⟨d, .matrix ⟨width, rows.map (·.map (Block.convert d))⟩⟩
    else .error .badValue
  if items.all isList && !items.isEmpty then
    nestedOnce (items.map fun | .list xs => xs | d => [d])
  else if items.any isList then .error .badValue
  else
    let d := cellTypeOfAll items
    .ok ⟨d, .vector (items.map (Block.convert d))⟩

/-- A value as a block, if it has one. -/
def block? : Value → Except Fault (Option Block)
  | series c => .ok (some c.values)
  | array b => .ok (some b)
  | datum (.list items) => do return some (← blockOfList items)
  | datum d | cell d => .ok (some ⟨cellTypeOf d, .deep [] [d]⟩)
  | _ => .ok none

end Value

end ModelFormula
