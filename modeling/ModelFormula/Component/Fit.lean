import ModelFormula.Component.State

/-!
# Fitting a component

First a component finds out its kind from the data; then it is told how to code its levels and takes
its numbers. Numeric components keep the column as it is, categoric ones code every cell by the row
of its level.
-/
namespace ModelFormula.Component

/-- The kind of a column that a variable names. -/
def setVariableKind (name : Literal) (source : DataSource) : Step Unit := do
  let x ← columnOf source name
  let kind ←
    if x.isNumeric then pure Kind.numeric
    else if x.isString || x.isCategory then pure .categoric
    else throw (.variableType x.className)
  modify ({ · with kind := some kind, column := x })

/-- The kind of what a call evaluates to. An offset is told the number of rows. -/
def setCallKind (e : CallExpr) (source : DataSource) (scope : Scope Value) : Step Unit := do
  modify ({ · with scope := some scope.withLibrary })
  let x ← evaluate e source
  let settle (kind : Kind) : Step Unit := modify ({ · with kind := some kind })
  let x ←
    if x.isNumeric then do
      settle .numeric
      pure x
    else if x.isString || x.isCategory then do
      settle .categoric
      pure x
    else match x with
      | .box _ => do
        settle .categoric
        pure x
      | .offset o => do
        settle .offset
        pure (.offset (o.resize (← source.indexLength)))
      | .proportion _ => do
        settle .proportion
        pure x
      | x => throw (.callType x.className)
  modify ({ · with column := x })

/-- The owner is the sort of term that the component belongs to. -/
def setKind (atom : Atom) (source : DataSource) (scope : Scope Value)
    (owner : String := "Term") : Step Unit :=
  match atom with
  | .variable name _ => setVariableKind name source
  | .call e => setCallKind e source scope
  | .stray s => throw (.componentType owner s.className)

/-- The fault of a component whose type is none of those that it can have. -/
def typeFault (atom : Atom) (shown : String) : Fault :=
  match atom with
  | .variable _ _ => .variableType shown
  | _ => .callType shown

/-- Numbers are taken as they are. -/
def setNumeric (atom : Atom) (x : Value) : Step Unit := do
  match x with
  | .array b => modify ({ · with value := some b })
  | .series c => modify ({ · with value := some c.values })
  | x => throw (typeFault atom x.className)

/-- A value as a block whose cells are to be coded. -/
def codedBlock (x : Value) : Except Fault Block := do
  match ← x.block? with
  | some b => return b
  | none => throw .unsupported

/-- The levels of a column in increasing order, coded by treatment contrasts. -/
def setLevels (x : Value) (spansIntercept : Datum) : Step Unit := do
  let levels ← Levels.ofValue x
  modify ({ · with levels := some levels })
  let contrast ← (Contrast.treatment .default).code spansIntercept.truthy levels
  modify ({ · with contrast := some contrast })
  let value ← Levels.code contrast levels (← codedBlock x)
  modify ({ · with value := some value, spansIntercept })

/-- A response with a reference level is one where the column has that level. -/
def setIndicator (x : Value) (reference : Literal) (spansIntercept : Datum) : Step Unit := do
  let levels ← Levels.ofValue x
  modify ({ · with levels := some levels })
  let equal ← x.binary .eq (.datum (.ofLiteral reference))
  let b ← codedBlock equal
  let value : Block := ⟨.int, b.grid.map fun c => .int (if c.truthy then 1 else 0)⟩
  modify ({ · with value := some value, spansIntercept })

/-- The levels of a box are those that it was given or its distinct values in increasing order. They
must be different from each other, and none may be missing. -/
def boxLevels (box : CategoricalBox) : Except Fault (List Datum) := do
  let levels ← match box.levels with
    | .null => Datum.sorted (Datum.distinct box.data.grid.cells)
    | .list xs => pure xs
    | _ => throw .unsupported
  if levels.any Datum.isMissing then throw .badValue
  if (Datum.distinct levels).length < levels.length then throw .badValue
  return levels

/-- Every cell of a box coded by the row at the place of its level. -/
def codeBox (c : ContrastMatrix) (levels : List Datum) (data : Block) : Except Fault Block := do
  let rows ← data.grid.cells.mapM fun x =>
    match levels.findIdx? (· == x) with
    | some i => Levels.row c i
    | none => .error .outOfRange
  return ⟨c.matrix.cellType, .matrix ⟨c.width, rows⟩⟩

def setBox (box : CategoricalBox) (spansIntercept : Datum) : Step Unit := do
  let levels ← boxLevels box
  modify ({ · with levels := some levels })
  let contrast ← (box.contrast.getD (.treatment .default)).code spansIntercept.truthy levels
  modify ({ · with contrast := some contrast })
  let value ← codeBox contrast levels box.data
  modify ({ · with value := some value, spansIntercept })

/-- The numbers of an offset or a proportion. -/
def specialBlock : Value → Except Fault Block
  | .offset o => o.block
  | .proportion p => .ok p.block
  | _ => .error .noAttribute

def setVariableData (atom : Atom) (reference : Option Literal) (spansIntercept : Datum) :
    Step Unit := do
  let st ← get
  match st.kind with
  | none => throw .variableTypeUnset
  | some .numeric => setNumeric atom st.column
  | some .categoric =>
    match st.isResponse, reference with
    | true, some r => setIndicator st.column r spansIntercept
    | _, _ => setLevels st.column spansIntercept
  | some kind => throw (.variableType kind.text)

def setCallData (atom : Atom) (spansIntercept : Datum) : Step Unit := do
  let st ← get
  match st.kind with
  | none => throw .callTypeUnset
  | some .numeric => setNumeric atom st.column
  | some .categoric =>
    match st.column with
    | .box b => setBox b spansIntercept
    | x => setLevels x spansIntercept
  | some .offset =>
    if st.isResponse then throw .offsetResponse
    let b ← specialBlock st.column
    modify ({ · with value := some b })
  | some .proportion =>
    unless st.isResponse do throw .strayProportion
    let b ← specialBlock st.column
    modify ({ · with value := some b })
  | some kind => throw (.callType kind.text)

/-- Takes the numbers of a component, coding its levels with or without the intercept. -/
def setData (atom : Atom) (spansIntercept : Datum) : Step Unit :=
  match atom with
  | .variable _ reference => setVariableData atom reference spansIntercept
  | .call _ => setCallData atom spansIntercept
  | .stray _ => throw .noAttribute

end ModelFormula.Component
