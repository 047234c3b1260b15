import ModelFormula.Design.Matrix
import ModelFormula.Expr.Parse
import ModelFormula.Model.OfExpr
import ModelFormula.Token.Scan

/-!
# Designs

A formula and data give a design: the response, the matrix of the common effects and that of the
group-specific ones. Only the columns that the model uses count, and rows in which one of them is
missing are dropped, kept or refused.
-/
namespace ModelFormula

/-- What is done with rows in which something is missing. -/
inductive MissingRows where
  | drop | error | keep
deriving DecidableEq, Repr

def MissingRows.ofDatum? : Datum → Option MissingRows
  | .text "drop" => some .drop
  | .text "error" => some .error
  | .text "pass" => some .keep
  | _ => none

/-- The response of a design. -/
structure ResponseMatrix where
  term : Term
  kind : Option Kind
  levels : Option (List String)
  matrix : Option Block

namespace ResponseMatrix

def evaluate (term : Term) (source : DataSource) (scope : Scope Value) : Fit ResponseMatrix := do
  term.setKind source scope
  term.setData (.uniform true)
  let st := (← get).part term.slot
  return ⟨term, st.kind, ← Fit.withStore term.levels, st.data⟩

/-- Only a proportion has something to evaluate on new data: its trials. -/
def evaluateNew (r : ResponseMatrix) (source : DataSource) : Fit Block :=
  if r.kind = some .proportion then r.term.newData source else throw .responseNotProportion

def table (r : ResponseMatrix) (σ : Store) : Except Fault Table := do
  let labels ← r.term.labels σ
  match r.matrix with
  | some b => Table.make b (labels.map (·.map Datum.ofLiteral))
  | none => throw .noAttribute

end ResponseMatrix

structure Design where
  model : Model
  response : Option ResponseMatrix
  common : Option DesignMatrix
  group : Option DesignMatrix

/-- The model of a formula, with the intercept that is implied. -/
def Operand.ofFormula (formula : String) : Fit Operand := do
  let tokens ← (Token.scan formula true : Except Fault _)
  Operand.ofExpr (← Expr.parse tokens)

/-- The names of the columns that an operand uses. -/
def Operand.varNames : Operand → Except Fault (List Literal)
  | .part p => p.varNames
  | .model m => m.varNames
  | .response t => t.varNames
  | .foreign _ => .error .noAttribute

namespace Design

/-- The matrix of some parts, if there are any. -/
def matrixOf (parts : List Part) : Fit (Option DesignMatrix) := do
  if parts.isEmpty then return none
  let d ← DesignMatrix.ofParts parts
  return some (← Fit.withStore d.evaluate)

/-- Fits a model to data and assembles its matrices. -/
def ofModel (m : Model) (frame : Frame) (scope : Scope Value) : Fit Design := do
  let source : DataSource := .frame frame
  let m ← m.fit source scope
  let response ← match m.response with
    | some t => do pure (some (← ResponseMatrix.evaluate t source scope))
    | none => pure none
  let common ← matrixOf (m.common.map .effect)
  let group ← matrixOf (m.group.map .group)
  return ⟨m, response, common, group⟩

/-- The rows that are left after looking for missing values. -/
def completeRows (frame : Frame) (action : MissingRows) : Fit Frame := do
  let incomplete := frame.incomplete
  let count := (incomplete.filter id).length
  if count = 0 then return frame
  let share := toString count ++ "/" ++ toString frame.height
  match action with
  | .keep =>
    Fit.warn ("Keeping " ++ share ++ " rows with at least one missing value in the dataset.")
    return frame
  | .drop =>
    Fit.warn ("Automatically removing " ++ share ++ " rows from the dataset.")
    return frame.select (incomplete.map (!·))
  | .error => throw (.incompleteRows count)

/-- The checks of what a design is asked for. -/
def checked (formula : Datum) (source : DataSource) (action : Datum) :
    Except Fault (String × Frame × MissingRows) := do
  let .text formula := formula | throw .formulaNotText
  if formula.isEmpty then throw .formulaEmpty
  let .frame frame := source | throw .dataNotFrame
  if frame.height = 0 then throw .dataEmpty
  let some action := MissingRows.ofDatum? action | throw .missingAction
  return (formula, frame, action)

/-- The design of a formula on data, in the scope of the caller. -/
def make (formula : Datum) (source : DataSource) (action : Datum)
    (scope : Except Fault (Scope Value)) : Fit Design := do
  let (formula, frame, action) ← checked formula source action
  let scope ← scope
  let description ← Operand.ofFormula formula
  let frame := frame.restrict (← description.varNames)
  let frame ← completeRows frame action
  match description with
  | .model m => ofModel m frame scope
  | _ => throw .noAttribute

end Design

end ModelFormula
