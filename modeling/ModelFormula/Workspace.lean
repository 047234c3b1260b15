import ModelFormula.Design

/-!
# Workspaces

A workspace holds named objects. Several names may mean one model, so models are kept by number and
changed in place: what an operator does to the model on its left is seen under all its names.
-/
namespace ModelFormula

inductive Object where
  | component (c : Component)
  | part (p : Part)
  | response (t : Term)
  | model (id : Nat)
  | datum (d : Datum)
  | components (cs : List Component)
  | block (b : Option Block)
deriving Inhabited

structure Workspace where
  objects : List (String × Object) := []
  models : Array Model := #[]
  store : Store := {}
deriving Inhabited

/-- Steps that change a workspace. -/
abbrev Session := ExceptT Fault (StateM Workspace)

/-- What can be asked of an object. -/
inductive Attribute where
  | name | kind | shown | varNames | labels | levels | commonComponents | spansIntercept | data
deriving DecidableEq, Repr

inductive Command where
  | intercept
  | negated
  | component (atom : Atom)
  | term (components : List String)
  | group (expr factor : String)
  | response (term : String)
  | model (response : Option String) (terms : List String)
  | addTerm (model term : String)
  | addResponse (model response : String)
  | ask (a : Attribute) (object : String)
  | getComponent (term : String) (name : Literal)
  | setKind (object : String) (source : DataSource) (scope : Scope Value)
  | setData (object : String) (encoding : Datum)
  | newData (object : String) (source : DataSource)
  | operate (op : Operand.Operator) (left right : String)
  | equal (left right : String)

namespace Workspace

def model (w : Workspace) (id : Nat) : Model := w.models[id]?.getD {}

/-- The class of an object that is no operand. -/
def foreignClass : Object → String
  | .component ⟨_, .variable _ _⟩ => classText "formulae.terms.variable.Variable"
  | .component _ => classText "formulae.terms.call.Call"
  | .datum d => classText d.className
  | .components _ => classText "list"
  | .block (some _) => classText "str"
  | _ => classText "NoneType"

def operand (w : Workspace) : Object → Operand
  | .part p => .part p
  | .response t => .response t
  | .model id => .model (w.model id)
  | o => .foreign (foreignClass o)

/-- An object as text; components in a list show as they do alone. -/
def text (w : Workspace) : Object → Except Fault String
  | .component c => c.text
  | .datum d => .ok d.plain
  | .components cs => do return "[" ++ ", ".intercalate (← cs.mapM Component.text) ++ "]"
  | .block _ => .ok ""
  | o => (w.operand o).text

end Workspace

namespace Session

/-- A computation on the store of the workspace. -/
def fit {α : Type} (action : Fit α) : Session α := do
  let (result, store) := action.run.run (← get).store
  modify ({ · with store })
  ExceptT.mk (pure result)

def lookup (name : String) : Session Object := do
  match (← get).objects.find? (·.1 == name) with
  | some (_, o) => return o
  | none => throw .noKey

def operandOf (o : Object) : Session Operand := return (← get).operand o

def newModel (m : Model) : Session Object := do
  let id := (← get).models.size
  modify fun w => { w with models := w.models.push m }
  return .model id

def setModel (id : Nat) (m : Model) : Session Unit :=
  modify fun w => { w with models := w.models.setIfInBounds id m }

/-- The object of a result; a model among them is new. -/
def ofOperand : Operand → Session Object
  | .part p => return .part p
  | .response t => return .response t
  | .model m => newModel m
  | .foreign _ => throw .unsupported

/-- Makes edits on a model in place, one after the other. -/
def editModel (id : Nat) (edits : List Model.Edit) : Session Object := do
  for e in edits do
    let m := (← get).model id
    setModel id (← fit (Fit.withKinds (m.edit · e)))
  return .model id

/-- An operator with a model on its left. -/
def operateModel (op : Operand.Operator) (id : Nat) (right : Object) : Session Object := do
  let m := (← get).model id
  let other ← operandOf right
  if Model.revises op then return ← editModel id (← fit (m.edits op other))
  match op, m.common with
  | .mul, _ =>
    if ← fit (Fit.withKinds fun kinds => (Operand.model m).same kinds other) then return .model id
    ofOperand (← fit (m.mul other))
  | .bar, [e] => ofOperand (← fit (e.operate .bar other))
  | .bar, _ =>
    let settled ← fit m.settleIntercept
    setModel id settled
    ofOperand (← fit (settled.groupBy (← operandOf right)))
  | _, _ => ofOperand (← fit (m.operate op other))

def operate (op : Operand.Operator) (left right : Object) : Session Object := do
  match op, left, right with
  | op, .model id, right => operateModel op id right
  | .add, .response t, .model id =>
    setModel id { (← get).model id with response := some t }
    return .model id
  | op, left, right =>
    let a ← operandOf left
    ofOperand (← fit (a.operate op (← operandOf right)))

def equal (left right : Object) : Session Bool := do
  match left, right with
  | .component a, .component b => fit (Fit.withKinds (a.same · b))
  | .datum a, .datum b => return a == b
  | left, right =>
    let a ← operandOf left
    let b ← operandOf right
    fit (Fit.withKinds (a.same · b))

def partOf (name : String) : Session Part := do
  match ← lookup name with
  | .part p => return p
  | _ => throw .modelTerm

def effectOf (name : String) : Session Effect := do
  match ← lookup name with
  | .part (.effect e) => return e
  | _ => throw .unsupported

/-- A part of a model in the place of a component. -/
def strayOf (p : Part) : Except Fault Stray := do
  let name ← match p with
    | .effect e => .ok e.name
    | .group g => g.name
  return ⟨(Operand.part p).className, name, ← p.text, ← p.varNames⟩

/-- An object as a component; it must at least have a name. -/
def asComponent (o : Object) : Session Component := do
  match o with
  | .component c => return c
  | .part p => fit (Fit.newComponent (.stray (← strayOf p)))
  | _ => throw .noAttribute

/-- The parts of a new model; all names must be known before they are looked at. -/
def partsOf (names : List String) : Session (List Part) := do
  discard (names.mapM lookup)
  names.mapM partOf

def makeModel (response : Option String) (terms : List String) : Session Object := do
  let response ← response.mapM lookup
  discard (terms.mapM lookup)
  let response ← match response with
    | none => pure none
    | some (.response t) => pure (some t)
    | some (.datum .null) => pure none
    | some _ => throw .modelResponse
  newModel (.ofParts (← partsOf terms) response)

def addTerm (model term : String) : Session Object := do
  let target ← lookup model
  let added ← lookup term
  let .model id := target | throw .noAttribute
  match ← operandOf added with
  | .part p => editModel id [.add p]
  | o => throw (.addedTerm o.className)

def addResponse (model response : String) : Session Object := do
  let target ← lookup model
  let added ← lookup response
  let .model id := target | throw .noAttribute
  match added with
  | .response t =>
    setModel id { (← get).model id with response := some t }
    return .model id
  | _ => throw .addedResponse

def ofText (s : String) : Object := .datum (.text s)

def ofTexts (xs : List String) : Object := .datum (.list (xs.map .text))

def ofOptionTexts (xs : Option (List String)) : Object :=
  (xs.map ofTexts).getD (.datum .null)

def ofLabels (labels : Option (List Literal)) : Object :=
  .datum ((labels.map fun ls => .list (ls.map .ofLiteral)).getD .null)

def ofKind (kind : Option Kind) : Object :=
  .datum ((kind.map fun k => .text k.text).getD .null)

def nameOf (o : Object) : Except Fault Object :=
  match o with
  | .component c => .ok (.datum (.ofLiteral c.name))
  | .part (.effect e) => .ok (ofText e.name)
  | .part (.group g) => g.name.map ofText
  | _ => .error .noAttribute

def kindOf (σ : Store) (o : Object) : Except Fault Object :=
  match o with
  | .component c => .ok (ofKind (σ.component c.slot).kind)
  | .part (.effect e) => .ok (ofKind (e.kind σ))
  | .part (.group g) => .ok (ofKind (σ.part g.slot).kind)
  | _ => .error .noAttribute

/-- The names of the columns that an object uses, sorted and without repetitions. -/
def varNamesOf (w : Workspace) (o : Object) : Except Fault Object := do
  let names ← match o with
    | .component c => c.varNames
    | o => (w.operand o).varNames
  let sorted := names.mergeSort fun a b => decide (a.plain ≤ b.plain)
  return .datum (.list (Datum.distinct (sorted.map .ofLiteral)))

def labelsOf (σ : Store) (o : Object) : Except Fault Object :=
  match o with
  | .component c => (c.labels (σ.component c.slot)).map ofLabels
  | .part p => (p.labels σ).map ofLabels
  | _ => .error .noAttribute

def levelsOf (σ : Store) (o : Object) : Except Fault Object :=
  match o with
  | .component c => .ok (.datum (((σ.component c.slot).levels.map .list).getD .null))
  | .part (.effect (.term t)) => (t.levels σ).map ofOptionTexts
  | _ => .error .noAttribute

def spansInterceptOf (σ : Store) (o : Object) : Except Fault Object :=
  match o with
  | .component c => .ok (.datum (σ.component c.slot).spansIntercept)
  | .part (.effect (.term t)) => .ok (.datum (.bool (t.spansIntercept σ)))
  | _ => .error .noAttribute

def answer (a : Attribute) (o : Object) : Session Object := do
  let w ← get
  match a with
  | .name => nameOf o
  | .kind => kindOf w.store o
  | .shown =>
    match o with
    | .datum d => return ofText d.quoted
    | o => return ofText (← w.text o)
  | .varNames => varNamesOf w o
  | .labels => labelsOf w.store o
  | .levels => levelsOf w.store o
  | .commonComponents =>
    match o with
    | .model id => return .components (w.model id).commonComponents
    | _ => throw .noAttribute
  | .spansIntercept => spansInterceptOf w.store o
  | .data =>
    match o with
    | .part p => return .block (← p.data? w.store)
    | _ => throw .noAttribute

def setKind (o : Object) (source : DataSource) (scope : Scope Value) : Session Unit := do
  match o with
  | .component ⟨slot, .call e⟩ =>
    fit (Fit.step ⟨slot, .call e⟩ (Component.setCallKind e source scope))
  | .component _ => throw .unsupported
  | .part (.effect e) => fit (e.setKind source scope)
  | .part (.group g) => fit (g.setKind source scope)
  | .response t => fit (t.setKind source scope)
  | _ => throw .noAttribute

def setData (o : Object) (encoding : Datum) : Session Unit := do
  match o with
  | .component c => fit (Fit.step c (Component.setData c.atom encoding))
  | .part (.effect e) => fit (e.setData (.ofDatum encoding))
  | .part (.group g) => fit (g.setData (.ofDatum encoding))
  | .response _ => throw .unsupported
  | _ => throw .noAttribute

def newData (o : Object) (source : DataSource) : Session Object := do
  match o with
  | .component c => return .block (some (← fit (Fit.step c (Component.newData c.atom source))))
  | .part p => return .block (some (← fit (p.newData source)))
  | _ => throw .noAttribute

/-- The result of a command. -/
def result : Command → Session Object
  | .intercept => do return .part (.effect (← fit Fit.newIntercept))
  | .negated => return .part (.effect .negated)
  | .component atom => do return .component (← fit (Fit.newComponent atom))
  | .term names => do
    let components ← (← names.mapM lookup).mapM asComponent
    return .part (.effect (.term (← fit (Fit.newTerm components))))
  | .group expr factor => do
    let expr ← effectOf expr
    let factor ← effectOf factor
    return .part (.group (← fit (Fit.newGroup expr factor)))
  | .response term => do
    let o ← operandOf (← lookup term)
    return .response (← fit o.asResponse)
  | .model response terms => makeModel response terms
  | .addTerm model term => addTerm model term
  | .addResponse model response => addResponse model response
  | .ask a object => do answer a (← lookup object)
  | .getComponent term name => do
    match ← lookup term with
    | .part (.effect (.term t)) =>
      return ((t.component? name).map Object.component).getD (.datum .null)
    | _ => throw .noAttribute
  | .setKind object source scope => do
    setKind (← lookup object) source scope
    return .datum .null
  | .setData object encoding => do
    setData (← lookup object) encoding
    return .datum .null
  | .newData object source => do newData (← lookup object) source
  | .operate op left right => do
    let a ← lookup left
    operate op a (← lookup right)
  | .equal left right => do
    let a ← lookup left
    return .datum (.bool (← equal a (← lookup right)))

/-- Runs a command and keeps its result under a name. -/
def perform (name : String) (command : Command) : Session Unit := do
  let o ← result command
  modify fun w => { w with objects := Model.assign name o w.objects }

end Session

end ModelFormula
