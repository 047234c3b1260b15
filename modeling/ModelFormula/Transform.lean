import ModelFormula.Polynomial
import ModelFormula.Spline
import ModelFormula.Statistics
import ModelFormula.Value.Arithmetic
import ModelFormula.Value.Text

/-!
# Transforms with a memory

Centering, scaling, splines and polynomials take their parameters from the first column that they
see and keep them. A call that fails keeps what it has found out before.
-/
namespace ModelFormula

namespace Transform

/-- The parameters of a fitted spline, as they were given. -/
structure SplineFit where
  intercept : Value
  degree : Datum
  knots : Block
deriving Inhabited

/-- What a transform remembers. -/
inductive Memory where
  | center (mean : Option Datum)
  | scale (mean deviation : Option Datum)
  | spline (fit : Option SplineFit)
  | polynomial (degree raw : Value) (known : Polynomial.Memory Float)
deriving Inhabited

def Memory.initial : Stateful → Memory
  | .center => .center none
  | .scale => .scale none none
  | .spline => .spline none
  | .polynomial => .polynomial (.datum (.int 1)) (.datum (.bool false)) {}

/-- The transform that a memory belongs to. -/
def Memory.transform : Memory → Stateful
  | .center _ => .center
  | .scale _ _ => .scale
  | .spline _ => .spline
  | .polynomial _ _ _ => .polynomial

/-- Computations with a memory, which is kept on a fault. -/
abbrev Remember := ExceptT Fault (StateM Memory)

/-- The arguments of a call in the order of the parameters. A parameter without a default must be
given, and none twice. -/
def arguments (parameters : List (String × Option Value)) (args : List Value)
    (named : List (String × Value)) : Except Fault (List Value) := do
  if parameters.length < args.length then throw .unsupported
  unless named.all fun (k, _) => (parameters.drop args.length).any (·.1 == k) do
    throw .unsupported
  parameters.zipIdx.mapM fun ((name, default?), i) =>
    match args[i]?, named.find? (·.1 == name), default? with
    | some v, _, _ => .ok v
    | none, some (_, v), _ => .ok v
    | none, none, some v => .ok v
    | none, none, none => .error .unsupported

/-- The default of an argument that may be left out. -/
def absent : Option Value := some (.datum .null)

def isNull : Value → Bool
  | .datum .null => true
  | _ => false

/-- A whole number, as which truth values count too. -/
def wholeNumber? : Value → Option Int
  | .datum d => d.int?
  | _ => none

def center (x : Value) : Remember Value := do
  let m ← match ← get with
    | .center (some m) => pure m
    | _ =>
      let m ← Statistics.mean x
      set (Memory.center (some m))
      pure m
  x.binary .sub (.cell m)

def scale (x : Value) : Remember Value := do
  let (m, s) ← match ← get with
    | .scale (some m) (some s) => pure (m, s)
    | _ =>
      let m ← Statistics.mean x
      set (Memory.scale (some m) none)
      let s ← Statistics.deviation x
      set (Memory.scale (some m) (some s))
      pure (m, s)
  let centered ← x.binary .sub (.cell m)
  centered.binary .div (.cell s)

/-- The number of items of the knots that were given. -/
def knotCount : Value → Except Fault Nat
  | .datum (.list xs) => .ok xs.length
  | .datum (.text s) => .ok s.length
  | .series c => .ok c.cells.length
  | .array b =>
    match b.grid.length? with
    | some n => .ok n
    | none => .error .unsupported
  | _ => .error .unsupported

/-- The knots as a block; what has no cells cannot be compared with a bound. -/
def knotBlock (v : Value) : Except Fault Block := do
  match ← v.block? with
  | some b => return b
  | none => throw .unsupported

/-- A bound that was given, or found in the data. -/
def bound (given : Value) (found : Except Fault Datum) : Except Fault Datum :=
  match given with
  | .datum .null => found
  | .datum d | .cell d => .ok d
  | _ => .error .badValue

/-- Knots and bounds must have an order. -/
def comparable (cells : List Datum) (bound : Datum) : Except Fault Unit :=
  if cells.all fun c => (c.less? bound).isSome then .ok () else .error .unsupported

/-- Whether a value has truth values in its cells, which cannot be subtracted. -/
def isTruth (x : Value) : Except Fault Bool := do
  match ← x.block? with
  | some b => return b.cellType == .bool
  | none => return false

/-- The numbers of which quantiles are taken. Where no knot is asked for the data need not be
numbers. -/
def quantileNumbers (x : Value) (count : Nat) : Except Fault (List Float) := do
  if ← isTruth x then throw .unsupported
  if count = 0 then return []
  Statistics.floats x

/-- Degrees of freedom, as given and as a number. The only number that counts as false and is not
whole is zero. -/
def freedomOf : Value → Except Fault (Datum × Option Int)
  | .datum .null => .ok (.null, none)
  | .datum (.float x) => .ok (.float x, some 0)
  | .datum freedom =>
    match freedom.int? with
    | some n => .ok (freedom, some n)
    | none => .error .unsupported
  | _ => .error .unsupported

/-- What is said of arguments that do not make a spline. -/
def splineFault (freedom degree : Datum) (intercept : Value) : Spline.Refusal Datum → Fault
  | .noKnots => .noKnots
  | .few least =>
    match intercept with
    | .datum shown => .freedomSmall freedom.plain degree.plain shown.plain (like freedom least)
    | _ => .unsupported
  | .miscounted implied provided =>
    .freedomKnots freedom.plain degree.plain (like freedom implied) (toString provided)
  | .noData => .outOfRange
  | .crossed lower upper => .boundsCrossed lower.plain upper.plain
  | .below knots lower => .knotsBelow (Value.cellsText knots) lower.plain
  | .above knots upper => .knotsAbove (Value.cellsText knots) upper.plain
where
  /-- A whole number in the type of another. -/
  like (d : Datum) (n : Int) : String :=
    match d with
    | .float _ => (Datum.float (Decimal.ofInt n)).plain
    | _ => (Datum.int n).plain

/-- The arguments of a first call. The degree is there as given and as a number. -/
def splineArguments (x knots intercept lower upper : Value) (freedom : Datum × Option Int)
    (degree : Datum) (k : Nat) : Spline.Arguments Fault Float Datum where
  freedom := freedom.2
  degree := k
  intercept := intercept.truthy
  given := if isNull knots then none else some (knotCount knots, do
    let b ← knotBlock knots
    if 1 < b.rank then throw .knotsShape
    return b.grid.cells)
  numbers count :=
    match freedom.1 with
    | .float _ => .error .unsupported
    | _ => quantileNumbers x count
  ofNumber := .float
  lower := bound lower (Statistics.minimum x)
  upper := bound upper (Statistics.maximum x)
  comparable := comparable
  refuse := splineFault freedom.1 degree intercept

/-- The checks and the knots of a first call. -/
def fitSpline (x freedom knots degree intercept lower upper : Value) :
    Except Fault SplineFit := do
  let some k := wholeNumber? degree | throw (.degreeType degree.className)
  let .datum degree := degree | throw (.degreeType degree.className)
  if k < 0 then throw (.degreeNegative degree.plain)
  if (← freedom.truthy) && (wholeNumber? freedom).isNone then throw .freedomType
  let args := splineArguments x knots intercept lower upper (← freedomOf freedom) degree k.toNat
  let cells ← Spline.fit args
  let inner ← if isNull knots then pure (Block.ofFloats []) else knotBlock knots
  if inner.rank = 0 then throw .badValue
  let bounds := (Value.cellTypeOf (← args.lower)).join (Value.cellTypeOf (← args.upper))
  let d := bounds.join inner.cellType
  return ⟨intercept, degree, ⟨d, .vector (cells.map (Block.convert d))⟩⟩

/-- The numbers of a column or block of numbers. -/
def columnFloats (x : Value) : Except Fault (List Float) := do
  match x with
  | .series _ | .array ⟨_, .vector _⟩ =>
    match Statistics.floats x with
    | .ok xs => return xs
    | .error _ => throw .badValue
  | .array _ => throw .badValue
  | _ => throw .noAttribute

def evalSpline (fit : SplineFit) (x : Value) : Except Fault Value := do
  let xs ← columnFloats x
  let knots ← fit.knots.grid.cells.mapM Statistics.floatOf
  let degree := ((fit.degree.int?).getD 0).toNat
  let whole ← fit.intercept.truthy
  return .array (Block.ofFloatRows (Spline.width knots degree whole)
    (Spline.eval knots degree whole xs))

def spline (x freedom knots degree intercept lower upper : Value) : Remember Value := do
  let fit ← match ← get with
    | .spline (some fit) => pure fit
    | _ =>
      let fit ← fitSpline x freedom knots degree intercept lower upper
      set (Memory.spline (some fit))
      pure fit
  evalSpline fit x

/-- The given columns side by side. -/
def columnsBlock (height : Nat) (columns : List (List Float)) : Block :=
  Block.ofFloatRows columns.length
    ((List.range height).map fun i => columns.map fun xs => xs[i]?.getD Statistics.nan)

/-- Plain powers of a column. -/
def rawPowers (x : Value) (degree : Int) : Except Fault Value := do
  if x.isCategory then throw .unsupported
  let some b := ← x.block? | throw .unsupported
  if degree ≤ 0 then throw .badValue
  let powers ← (List.range degree.toNat).mapM fun (i : Nat) =>
    Value.binaryBlocks .pow b ⟨.int, .deep [] [.int ((i : Int) + 1)]⟩
  let matrices := powers.filterMap fun b =>
    match b.grid with
    | .deep [] [x] => some (Matrix.ofVector [x])
    | _ => b.matrix?
  match matrices with
  | [] => throw .badValue
  | m :: ms =>
    let d := (powers.head?.map (·.cellType)).getD .float
    return .array ⟨d, .matrix (ms.foldl Matrix.beside m)⟩

/-- The length of the first dimension of a column or block. -/
def firstDimension : Value → Except Fault Nat
  | .series c => .ok c.cells.length
  | .array b =>
    match b.grid.length? with
    | some n => .ok n
    | none => .error .outOfRange
  | .cell _ => .error .outOfRange
  | _ => .error .noAttribute

def polynomial (x degree raw : Value) : Remember Value := do
  let known ← match ← get with
    | .polynomial _ _ known => pure known
    | _ => pure {}
  set (Memory.polynomial degree raw known)
  if ← raw.truthy then
    let some k := wholeNumber? degree | throw .unsupported
    rawPowers x k
  else
    let height ← firstDimension x
    let some k := wholeNumber? degree | throw .unsupported
    if k < -1 then throw .badValue
    if k = -1 then throw .outOfRange
    if let .array b := x then
      if 1 < b.rank && 0 < k then throw .badValue
    let xs ← if k = 0 then pure (List.replicate height 0.0) else Statistics.floats x
    let total := Statistics.sum x.isSeries
    let (columns, known) := Polynomial.scaled Float.sqrt total xs k.toNat known
    set (Memory.polynomial degree raw known)
    return .array (columnsBlock height columns)

/-- A call of a transform. -/
def call (s : Stateful) (args : List Value) (named : List (String × Value)) : Remember Value := do
  match s with
  | .center | .scale =>
    match ← arguments [("x", none)] args named with
    | [x] => if s = .center then center x else scale x
    | _ => throw .unsupported
  | .spline =>
    match ← arguments [("x", none), ("df", absent), ("knots", absent),
        ("degree", some (.datum (.int 3))), ("intercept", some (.datum (.bool false))),
        ("lower_bound", absent), ("upper_bound", absent)] args named with
    | [x, freedom, knots, degree, intercept, lower, upper] =>
      spline x freedom knots degree intercept lower upper
    | _ => throw .unsupported
  | .polynomial =>
    match ← arguments [("x", none), ("degree", some (.datum (.int 1))),
        ("raw", some (.datum (.bool false)))] args named with
    | [x, degree, raw] => polynomial x degree raw
    | _ => throw .unsupported

end Transform

end ModelFormula
