import ModelFormula.Datum.Sorted
import ModelFormula.Transform

/-!
# Functions

What the functions of formulas do: elementwise mathematics, small arithmetic, and the functions that
tell what a column is (categorical, a proportion, an offset). Transforms with a memory are called
through their memory.
-/
namespace ModelFormula.Function

open Transform (arguments absent isNull)

/-- An elementwise function of floating point numbers. Whole numbers are converted; truth values are
computed in half precision, of which only the exponential shows more than its own digits. -/
def elementwise (f : Function) (d : CellType) (x : Datum) : Except Fault Datum :=
  match f, d, x with
  | .abs, .int, .int n => .ok (.int (Block.wrap n.natAbs))
  | .abs, .bool, x => .ok x
  | .abs, .float, .float v => .ok (.float v.abs)
  | .abs, .object, x =>
    match x with
    | .float v => .ok (.float v.abs)
    | x => match x.int? with
      | some n => .ok (.int n.natAbs)
      | none => .error .unsupported
  | _, .object, _ => .error .unsupported
  | .exp, .bool, .bool b => .ok (.float (if b then 2.71875 else 1.0))
  | f, _, x =>
    match x.float? with
    | some v =>
      match f with
      | .log => .ok (.float v.log)
      | .exp => .ok (.float v.exp)
      | .sqrt => .ok (.float v.sqrt)
      | _ => .error .unsupported
    | none => .error .unsupported

def elementwiseType (f : Function) (d : CellType) : CellType :=
  match f with
  | .abs => d
  | _ => .float

/-- The cells of a value for elementwise work; categories and dates have none. -/
def workingBlock (x : Value) : Except Fault Block := do
  match x with
  | .series ⟨.plain d, cells⟩ => return ⟨d, .vector cells⟩
  | .series _ => throw .unsupported
  | x =>
    match ← x.block? with
    | some b => return b
    | none => throw .unsupported

def mapElements (f : Function) (x : Value) : Except Fault Value := do
  let b ← workingBlock x
  let cells ← Value.mapGridM (elementwise f b.cellType) b.grid
  return Value.wrapResult x.isSeries ⟨elementwiseType f b.cellType, cells⟩

def powerOf (x y : Value) : Except Fault Value := do
  let a ← workingBlock x
  let b ← workingBlock y
  return Value.wrapResult (x.isSeries || y.isSeries) (← Value.binaryBlocks .pow a b)

/-- A single cell counts as one row. -/
def columnMatrix? (b : Block) : Option (Matrix Datum) :=
  match b.grid with
  | .deep [] [x] => some (.ofVector [x])
  | _ => b.matrix?

/-- A column and its double, side by side. -/
def withDouble (x : Value) : Except Fault Value := do
  let doubled ← x.binary .mul (.datum (.int 2))
  match ← x.block?, ← doubled.block? with
  | some a, some b =>
    let d := a.cellType.join b.cellType
    match columnMatrix? (a.convertTo d), columnMatrix? (b.convertTo d) with
    | some m, some n =>
      if m.height = n.height then return .array ⟨d, .matrix (m.beside n)⟩ else throw .badValue
    | _, _ => throw .badValue
  | _, _ => throw .badValue

def asArray (x : Value) : Except Fault Value := do
  match ← x.block? with
  | some b => return .array b
  | none => throw .badValue

def asList (x : Value) : Except Fault Value := do
  match x with
  | .datum (.list xs) => return .datum (.list xs)
  | .datum (.text s) => return .datum (.list (s.toList.map fun c => .text c.toString))
  | .series c => return .datum (.list c.values.grid.cells)
  | .array ⟨_, .vector xs⟩ => return .datum (.list xs)
  | .array ⟨_, .matrix m⟩ => return .datum (.list (m.rows.map .list))
  | _ => throw .unsupported

/-- The level that an argument stands for. -/
def levelArgument (x : Value) : Contrast.Choice :=
  match x with
  | .datum d | .cell d => .level d
  | .series _ | .array _ => .foreign x.shortTypeName true
  | x => .foreign x.shortTypeName false

/-- The items of levels that were given. -/
def levelItems (levels : Datum) : Except Fault (List Datum) :=
  match levels with
  | .list xs =>
    let hashable : Datum → Bool | .list _ | .record _ => false | _ => true
    if xs.all hashable then .ok xs else .error .unsupported
  | .text s => .ok (s.toList.map fun c => .text c.toString)
  | .record fields => .ok (fields.map fun (k, _) => .text k)
  | _ => .error .unsupported

def levelsArgument (x : Value) : Except Fault Datum :=
  match x with
  | .series c => .ok (.list c.values.grid.cells)
  | .array ⟨_, .vector xs⟩ => .ok (.list xs)
  | .datum d => .ok d
  | _ => .error .unsupported

/-- The contrast that an argument stands for; a function is tried without arguments, which it
needs. -/
def contrastArgument (x : Value) : Except Fault (Option Contrast) :=
  match x with
  | .datum .null => .ok none
  | .contrast c => .ok (some c)
  | .contrastType true => .ok (some (.sum .default))
  | .contrastType false => .ok (some (.treatment .default))
  | .function (.stateful _) => .error .boxContrast
  | .function _ => .error .unsupported
  | _ => .error .boxContrast

/-- A column with its contrast and levels. The levels must be those of the data; ordered categories
are the levels by default. -/
def makeBox (data contrast : Value) (levels : Value) : Except Fault Value := do
  let levels ← match data with
    | .series ⟨.category categories true, _⟩ =>
      if isNull levels then pure (Value.datum (.list categories)) else pure levels
    | .series _ | .array _ | .cell _ => pure levels
    | _ => throw .noAttribute
  let values ← match data with
    | .series c => pure c.values
    | .array ⟨d, .vector xs⟩ => pure (⟨d, .vector xs⟩ : Block)
    | _ => throw .boxData
  let contrast ← contrastArgument contrast
  let levels ← levelsArgument levels
  match levels with
  | .null => pure ()
  | levels =>
    unless Datum.sameItemsAs (← levelItems levels) values.grid.cells do throw .boxLevels
  return .box ⟨values, contrast, levels⟩

/-- A box that is boxed again keeps what is not given anew. -/
def makeCategorical (data contrast levels : Value) : Except Fault Value :=
  match data with
  | .box b =>
    let old : Value := (b.contrast.map Value.contrast).getD (.datum .null)
    makeBox (.array b.data) (if isNull contrast then old else contrast)
      (if isNull levels then .datum b.levels else levels)
  | data => makeBox data contrast levels

/-- The smallest value of a column. -/
def firstCategory (x : Value) : Except Fault Datum := do
  match x with
  | .series c =>
    match ← Datum.sorted (Datum.distinct c.values.grid.cells) with
    | first :: _ => return first
    | [] => throw .outOfRange
  | _ => throw .noAttribute

def successText (x : Value) : String := ((x.datum?).map Datum.plain).getD ""

/-- One where the column equals the success, which must occur, and zero elsewhere. -/
def indicator (x success : Value) : Except Fault Value := do
  let success ← if isNull success then do pure (Value.datum (← firstCategory x)) else pure success
  let equal ← x.binary .eq success
  let b ← match equal with
    | .series c => pure c.values
    | .array b => pure b
    | _ => throw .unsupported
  match b.grid with
  | .vector xs =>
    unless xs.any Datum.truthy do throw (.noSuccess (successText success))
  | .matrix m =>
    unless m.width = 1 do throw .badValue
    unless m.rows.flatten.any Datum.truthy do throw (.noSuccess (successText success))
  | _ => throw .badValue
  return .array ⟨.int, b.grid.map fun c => .int (if c.truthy then 1 else 0)⟩

/-- Whether a cell is a whole number; texts and missing objects cannot be asked. -/
def isWhole (x : Datum) : Except Fault Bool :=
  match x with
  | .float v => .ok (v.isFinite && v.floor == v)
  | x => if x.int?.isSome then .ok true else .error .unsupported

def allWhole (b : Block) : Except Fault Bool := do
  return (← b.grid.cells.mapM isWhole).all id

/-- Categories are not numbers, even if each of them is one. -/
def columnIsWhole (c : Column) : Except Fault Bool :=
  if c.isCategory then .error .unsupported else allWhole c.values

/-- Successes out of trials, which are a column too or the same number in every row. -/
def makeProportion (successes trials : Value) : Except Fault Value := do
  let .series s := successes | throw .successesName
  let successes := s.values
  let count := successes.grid.cells.length
  let (t, constant) ← match trials with
    | .series t => pure (t, false)
    | .datum d =>
      match d.int? with
      | some n => pure ((⟨.plain .int, List.replicate count (.int n)⟩ : Column), true)
      | none => throw .trialsName
    | _ => throw .trialsName
  unless ← columnIsWhole s do throw .successesCollection
  unless ← columnIsWhole t do throw .trialsCollection
  let trials := t.values
  let below ← Value.binaryBlocks .le successes trials
  unless below.grid.cells.all Datum.truthy do throw .successesExceed
  return .proportion ⟨successes, trials, constant⟩

def makeOffset (x : Value) : Except Fault Value :=
  match x with
  | .datum d =>
    if d.float?.isSome then .ok (.offset (.constant d none)) else .error .offsetKind
  | .cell (.float v) => .ok (.offset (.constant (.float v) none))
  | .series c => if c.isNumeric then .ok (.offset (.variable c.values)) else .error .offsetKind
  | x => .error (if x.isNumeric then .offsetArgument else .offsetKind)

/-- The functions of a single column. -/
def ofColumn (f : Function) (x : Value) : Except Fault Value :=
  match f with
  | .double => x.binary .mul (.datum (.int 2))
  | .increment => x.binary .add (.datum (.int 1))
  | .negate => x.unary .minus
  | .toArray => asArray x
  | .toList => asList x
  | .twoColumns => withDouble x
  | .offset => makeOffset x
  | _ => .ok x

/-- Positional arguments only. -/
def positional (count : Nat) (args : List Value) (named : List (String × Value)) :
    Except Fault (List Value) :=
  if args.length = count && named.isEmpty then .ok args else .error .unsupported

/-- A call of a function without a memory. -/
def apply (f : Function) (args : List Value) (named : List (String × Value)) :
    Except Fault Value := do
  match f with
  | .log | .exp | .sqrt | .abs =>
    match ← positional 1 args named with
    | [x] => mapElements f x
    | _ => throw .unsupported
  | .power =>
    match ← positional 2 args named with
    | [x, y] => powerOf x y
    | _ => throw .unsupported
  | .double | .increment | .negate | .toArray | .toList | .twoColumns | .identity | .offset =>
    match ← arguments [("x", none)] args named with
    | [x] => ofColumn f x
    | _ => throw .unsupported
  | .pick =>
    match ← arguments [("x", none), ("flag", absent)] args named with
    | [x, flag] => if ← flag.truthy then return x else x.unary .minus
    | _ => throw .unsupported
  | .sum =>
    match ← arguments [("x", none), ("y", none)] args named with
    | [x, y] => x.binary .add y
    | _ => throw .unsupported
  | .categorical =>
    match ← arguments [("data", none), ("contrast", absent), ("levels", absent)] args named with
    | [data, contrast, levels] => makeCategorical data contrast levels
    | _ => throw .unsupported
  | .sumCoded =>
    match ← arguments [("data", none), ("omit", absent), ("levels", absent)] args named with
    | [data, level, levels] => makeBox data (.contrast (.sum (levelArgument level))) levels
    | _ => throw .unsupported
  | .treatmentCoded =>
    match ← arguments [("data", none), ("ref", absent), ("levels", absent)] args named with
    | [data, level, levels] => makeBox data (.contrast (.treatment (levelArgument level))) levels
    | _ => throw .unsupported
  | .binary =>
    match ← arguments [("x", none), ("success", absent)] args named with
    | [x, success] => indicator x success
    | _ => throw .unsupported
  | .proportion =>
    match ← arguments [("successes", none), ("trials", none)] args named with
    | [successes, trials] => makeProportion successes trials
    | _ => throw .unsupported
  | .stateful _ => throw .unsupported

end ModelFormula.Function
