import ModelFormula.Block.Product
import ModelFormula.Component.NewData
import ModelFormula.Store
import ModelFormula.Sublists

/-!
# Fitting terms

A term takes the types of its components, then their numbers. The data of an interaction are all
products of the columns of its components. A group-specific term has the columns of its expression
once for every group.
-/
namespace ModelFormula

/-- How the components of a term are to be coded: all alike, or by their names. -/
inductive Encoding where
  | uniform (spansIntercept : Bool)
  | byName (flags : List (Literal × Datum))
  | invalid
deriving Inhabited

namespace Encoding

/-- A plain value as an encoding. -/
def ofDatum : Datum → Encoding
  | .bool b => uniform b
  | .record fields => byName (fields.map fun (k, v) => (.text k, v))
  | _ => invalid

/-- What a component is told; a name that is not mentioned does not span the intercept. -/
def flag (e : Encoding) (name : Literal) : Except Fault Datum :=
  match e with
  | uniform b => .ok (.bool b)
  | byName flags => .ok (((flags.find? (·.1 == name)).map (·.2)).getD (.bool false))
  | invalid => .error (.encodingType (classText "bool"))

end Encoding

namespace Term

/-- The numbers of a component; one that has none yet has no columns to ask for. -/
def columnBlock (st : Component.State) : Except Fault Block :=
  match st.value with
  | some b => .ok b
  | none => .error .noAttribute

def setKind (t : Term) (source : DataSource) (scope : Scope Value) : Fit Unit := do
  for c in t.components do
    Fit.step c (Component.setKind c.atom source scope)
  match t.components with
  | [] => throw .outOfRange
  | [c] =>
    let kind := ((← get).component c.slot).kind
    Fit.setPart t.slot ({ · with kind })
  | _ => Fit.setPart t.slot ({ · with kind := some .interaction })

def setData (t : Term) (encoding : Encoding) : Fit Unit := do
  for c in t.components do
    Fit.step c (Component.setData c.atom (← encoding.flag c.name))
  let σ ← get
  if (σ.part t.slot).kind = some .interaction then
    let blocks ← (t.components.mapM fun c => columnBlock (σ.component c.slot) :
      Except Fault (List Block))
    let data ← Block.interactAll blocks
    Fit.setPart t.slot ({ · with data := some data })
  else
    match t.components with
    | [] => throw .outOfRange
    | c :: _ => Fit.setPart t.slot ({ · with data := (σ.component c.slot).value })

def newDataBy (t : Term) (e : Component.Enumeration) (source : DataSource) : Fit Block := do
  if ((← get).part t.slot).kind = some .interaction then
    let blocks ← t.components.mapM fun c => Fit.step c (Component.newDataBy e c.atom source)
    Block.interactAll blocks
  else
    match t.components with
    | [] => throw .outOfRange
    | c :: _ => Fit.step c (Component.newDataBy e c.atom source)

abbrev newData (t : Term) (source : DataSource) : Fit Block := t.newDataBy .given source

end Term

namespace Effect

def setKind (e : Effect) (source : DataSource) (scope : Scope Value) : Fit Unit := do
  match e with
  | .intercept slot =>
    let n ← source.height
    Fit.setPart slot ({ · with height := some n })
  | .negated => return
  | .term t => t.setKind source scope

/-- A column of ones. Before the number of rows is known it is a single cell. -/
def ones (height : Option Nat) : Block :=
  match height with
  | some n => ⟨.int, .vector (List.replicate n (.int 1))⟩
  | none => ⟨.int, .deep [] [.int 1]⟩

def setData (e : Effect) (encoding : Encoding) : Fit Unit := do
  match e with
  | .intercept slot =>
    let st := (← get).part slot
    Fit.setPart slot ({ · with data := some (ones st.height) })
  | .negated => return
  | .term t => t.setData encoding

/-- The data of an effect. -/
def data? (e : Effect) (σ : Store) : Except Fault (Option Block) :=
  match e with
  | .intercept slot => .ok (σ.part slot).data
  | .term t => .ok (σ.part t.slot).data
  | .negated => .error .noAttribute

def kind (e : Effect) (σ : Store) : Option Kind :=
  match e with
  | .intercept _ | .negated => some .intercept
  | .term t => (σ.part t.slot).kind

def newData (e : Effect) (source : DataSource) : Fit Block := do
  match e with
  | .intercept _ => return ones (some (← source.height))
  | .negated => throw .noAttribute
  | .term t => t.newData source

end Effect

namespace GroupTerm

/-- The factors are made categoric, whatever they are. -/
def setKind (g : GroupTerm) (source : DataSource) (scope : Scope Value) : Fit Unit := do
  let .term factor := g.factor | throw .noAttribute
  for c in factor.components do
    Fit.step c (Component.setKind c.atom source scope "GroupSpecificTerm")
    Fit.step c (modify ({ · with kind := some .categoric }))
  let kind : Kind := if 1 < factor.components.length then .interaction else .categoric
  Fit.setPart factor.slot ({ · with kind := some kind })
  g.expr.setKind source scope

/-- The groups are the combinations of the levels of the factors. -/
def groupsOf (factor : Term) (σ : Store) : Except Fault (List String) := do
  let labels ← factor.components.mapM fun c =>
    match (σ.component c.slot).contrast with
    | some m => .ok m.labels
    | none => .error .noAttribute
  return (choices labels).map fun parts => ":".intercalate parts

def blockOf (data : Option Block) : Except Fault Block :=
  match data with
  | some b => .ok b
  | none => .error .noAttribute

def setData (g : GroupTerm) (encoding : Encoding) : Fit Unit := do
  g.expr.setData encoding
  g.factor.setData (.uniform true)
  let .term factor := g.factor | throw .noAttribute
  let groups ← Fit.withStore (groupsOf factor)
  Fit.setPart g.slot ({ · with groups := some groups })
  let x ← Fit.withStore g.expr.data?
  let j ← Fit.withStore g.factor.data?
  let x ← blockOf x
  let data ← Block.grouped (← blockOf j) x
  let kind := g.expr.kind (← get)
  Fit.setPart g.slot ({ · with data := some data, kind })

def newData (g : GroupTerm) (source : DataSource) : Fit Block := do
  let x ← g.expr.newData source
  let j ← g.factor.newData source
  Block.grouped j x

end GroupTerm

end ModelFormula
