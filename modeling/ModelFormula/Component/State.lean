import ModelFormula.CallExpr.Eval
import ModelFormula.Component
import ModelFormula.Levels
import ModelFormula.Library

/-!
# The state of a component

What fitting finds out about a component: its kind, what it evaluates to, the contrast that codes
its levels, and the numbers that it contributes to a model. A step that fails keeps what it has set
before.
-/
namespace ModelFormula.Component

structure State where
  kind : Option Kind := none
  isResponse : Bool := false
  levels : Option (List Datum) := none
  /-- Whether the coding spans the intercept, as it was asked for. -/
  spansIntercept : Datum := .null
  contrast : Option ContrastMatrix := none
  value : Option Block := none
  /-- What the component evaluates to on the data that it was fitted to. -/
  column : Value := .datum .null
  /-- The scope in which a call is evaluated. -/
  scope : Option (Scope Value) := none
  memories : Memories := []
deriving Inhabited

/-- Steps that change a state. -/
abbrev Step := ExceptT Fault (StateM State)

/-- A column of the data by the name of a variable. -/
def columnOf (source : DataSource) (name : Literal) : Except Fault Value :=
  match source with
  | .frame f =>
    match f.column? name with
    | some c => .ok (.series c)
    | none => .error .noKey
  | .plain (.record fields) =>
    match fields.find? fun (k, _) => Literal.text k == name with
    | some (_, d) => .ok (.datum d)
    | none => .error .noKey
  | .plain _ => .error .unsupported

/-- The value of a call in the scope that the state knows. -/
def evaluate (e : CallExpr) (source : DataSource) : Step Value := do
  let st ← get
  let names : CallExpr.Names := match st.scope with
    | some scope => scope.get
    | none => fun _ => .error .noAttribute
  let (result, memories) := e.evaluate source names st.memories
  modify ({ · with memories })
  ExceptT.mk (pure result)

end ModelFormula.Component
