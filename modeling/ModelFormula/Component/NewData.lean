import ModelFormula.Component.Fit

/-!
# Components on new data

A fitted component is evaluated on other data with the levels, the contrast and the memories that it
was fitted with. A variable codes an unseen level by zeros; a call refuses it.
-/
namespace ModelFormula.Component

/-- The items of a value that can be gone through; they must be plain. -/
def itemsOf (x : Value) : Except Fault (List Datum) :=
  match x with
  | .series c => .ok c.values.grid.cells
  | .array ⟨_, .vector xs⟩ => .ok xs
  | .datum (.list xs) =>
    let hashable : Datum → Bool | .list _ | .record _ => false | _ => true
    if xs.all hashable then .ok xs else .error .unsupported
  | .datum (.text s) => .ok (s.toList.map fun c => .text c.toString)
  | .datum (.record fields) => .ok (fields.map fun (k, _) => .text k)
  | _ => .error .unsupported

/-- A value as a block. -/
def asBlock (x : Value) : Except Fault Block := do
  match ← x.block? with
  | some b => return b
  | none => return ⟨.object, .deep [] [.null]⟩

/-- The levels that were fitted. -/
def fittedLevels (st : State) : Except Fault (List Datum) :=
  match st.levels with
  | some levels => .ok levels
  | none => .error .unsupported

def fittedContrast (st : State) : Except Fault ContrastMatrix :=
  match st.contrast with
  | some c => .ok c
  | none => .error .noAttribute

/-- The row of the level of a cell, or zeros for an unseen level. -/
def variableRow (c : ContrastMatrix) (levels : List Datum) (x : Datum) : List Datum :=
  match levels.findIdx? (· == x) with
  | some i => ((c.rows[i]?).getD []).map (Block.convert .float)
  | none => List.replicate c.width (.float 0.0)

/-- An order in which the members of a set of levels are gone through. -/
structure Enumeration where
  order : List Datum → List Datum
  perm (levels : List Datum) : (order levels).Perm levels

def Enumeration.given : Enumeration := ⟨id, fun _ => .refl _⟩

/-- Rows of new cells. All levels, those of the cells too, get a row in some order, and each cell the
row at the place of its level. -/
def recode (e : Enumeration) (c : ContrastMatrix) (levels cells : List Datum) :
    Except Fault (List (List Datum)) :=
  let all := e.order (Datum.distinct (levels ++ cells))
  let rows := all.map (variableRow c levels)
  cells.mapM fun x =>
    match rows[all.findIdx (· == x)]? with
    | some row => .ok row
    | none => .error .badValue

/-- New cells of a categoric variable. What is not a number cannot be found again. -/
def codeVariable (e : Enumeration) (st : State) (x : Value) : Except Fault Block := do
  let cells ← itemsOf x
  let levels ← fittedLevels st
  let c ← fittedContrast st
  let isNaN : Datum → Bool | .float v => v.isNaN | _ => false
  if cells.any isNaN then throw .badValue
  return ⟨.float, .matrix ⟨c.width, ← recode e c levels cells⟩⟩

/-- New cells of a categoric call, whose levels must all be known. -/
def codeCall (st : State) (name : String) (x : Value) : Except Fault Block := do
  let cells ← itemsOf x
  let levels ← fittedLevels st
  let unseen := (Datum.distinct cells).filter fun x => !levels.any (· == x)
  unless unseen.isEmpty do
    throw (.unseenLevels ((unseen.map Datum.plain).mergeSort fun a b => decide (a ≤ b)) name)
  let places ← cells.mapM (Levels.lowerBound levels)
  let c ← fittedContrast st
  let rows ← places.mapM (Levels.row c)
  return ⟨c.matrix.cellType, .matrix ⟨c.width, rows⟩⟩

def variableNewData (e : Enumeration) (name : Literal) (source : DataSource) : Step Block := do
  let x ← columnOf source name
  let st ← get
  match st.kind with
  | some .numeric => asBlock x
  | _ => codeVariable e st x

/-- The positional argument of a call. -/
def argument (e : CallExpr) (i : Nat) : Except Fault CallExpr :=
  match e with
  | .call _ args _ =>
    match args[i]? with
    | some a => .ok a
    | none => .error .outOfRange
  | .unary _ a => if i = 0 then .ok a else .error .outOfRange
  | .binary _ a b => if i = 0 then .ok a else if i = 1 then .ok b else .error .outOfRange
  | _ => .error .noAttribute

/-- The number that is written as an argument, in all new rows. -/
def constantRows (e : CallExpr) (i : Nat) (source : DataSource) : Except Fault Block := do
  let n ← source.indexLength
  match ← argument e i with
  | .value literal _ =>
    match (Datum.ofLiteral literal).float? with
    | some x => return Block.ofFloats (List.replicate n x)
    | none => throw .unsupported
  | _ => throw .noAttribute

/-- A constant offset is read off the call; any other is evaluated anew. -/
def offsetNewData (e : CallExpr) (source : DataSource) : Step Block := do
  match (← get).column with
  | .offset (.constant _ _) => constantRows e 0 source
  | .offset (.variable _) => specialBlock (← evaluate e source)
  | _ => throw .noAttribute

/-- The trials of a proportion: the written number, or the named column. -/
def proportionNewData (e : CallExpr) (source : DataSource) : Step Block := do
  match (← get).column with
  | .proportion p =>
    if p.constant then constantRows e 1 source
    else
      match ← argument e 1 with
      | .name s => asBlock (← columnOf source (.text s))
      | _ => throw .noAttribute
  | _ => throw .noAttribute

def callNewData (e : CallExpr) (source : DataSource) : Step Block := do
  match (← get).kind with
  | some .numeric => asBlock (← evaluate e source)
  | some .categoric =>
    let x ← evaluate e source
    let x := match x with
      | .box b => .array b.data
      | x => x
    codeCall (← get) e.text x
  | some .offset => offsetNewData e source
  | some .proportion => proportionNewData e source
  | _ => throw .noValue

/-- The numbers of a fitted component on new data. -/
def newDataBy (e : Enumeration) (atom : Atom) (source : DataSource) : Step Block :=
  match atom with
  | .variable name _ => variableNewData e name source
  | .call e => callNewData e source
  | .stray _ => throw .noAttribute

abbrev newData (atom : Atom) (source : DataSource) : Step Block := newDataBy .given atom source

end ModelFormula.Component
