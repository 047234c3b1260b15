import ModelFormula.Model.Coding
import ModelFormula.Term.Fit

/-!
# Fitting a model

All terms take their types. A term that needs several codings gets further terms in front of it, one
for each coding but the last; after that every term has a single coding and takes its data. An
expression in a group-specific term spans the intercept unless the same factor has a group-specific
intercept.
-/
namespace ModelFormula.Model

def setKinds (m : Model) (source : DataSource) (scope : Scope Value) : Fit Unit := do
  for e in m.common do e.setKind source scope
  for g in m.group do g.setKind source scope

/-- The components of a term that a coding mentions, and its numeric components. -/
def extraComponents (σ : Store) (t : Term) (coding : Coding.Flags Literal) : List Component :=
  let mentioned := (t.components.filter fun c => coding.any (·.1 == c.name)).filterMap fun c =>
    t.component? c.name
  mentioned ++ t.components.filter fun c => (σ.component c.slot).kind == some .numeric

/-- A term for one coding of another, with components of its own. -/
def extraTerm (t : Term) (coding : Coding.Flags Literal) (source : DataSource)
    (scope : Scope Value) : Fit Term := do
  let copies ← (extraComponents (← get) t coding).mapM Fit.copyComponent
  let extra ← Fit.newTerm copies
  extra.setKind source scope
  return extra

/-- Puts an effect in front of the first one that equals another. -/
def insertBefore (kinds : Component.Kinds) (new other : Effect) :
    List Effect → Except Fault (List Effect)
  | [] => .error .badValue
  | e :: rest => do
    if ← e.same kinds other then return new :: e :: rest
    return e :: (← insertBefore kinds new other rest)

/-- The terms that a term needs besides itself. -/
def addExtraFor (m : Model) (e : Effect) (codings : List (Coding.Flags Literal))
    (source : DataSource) (scope : Scope Value) : Fit Model :=
  codings.dropLast.foldlM (fun m coding => do
    let .term t := e | throw .noAttribute
    let extra ← extraTerm t coding source scope
    let common ← Fit.withKinds (insertBefore · (.term extra) e m.common)
    return { m with common }) m

def addExtraTerms (m : Model) (codings : Codings) (source : DataSource) (scope : Scope Value) :
    Fit Model :=
  m.common.foldlM (fun m e =>
    match codingsOf? codings e.name with
    | some cs => m.addExtraFor e cs source scope
    | none => return m) m

/-- The first coding of a term, which must have one if it is coded at all. -/
def encodingOf (codings : Codings) (name : String) : Except Fault Encoding :=
  match codingsOf? codings name with
  | none => .ok (.uniform false)
  | some [] => .error .outOfRange
  | some (coding :: _) => .ok (.byName (coding.map fun (n, b) => (n, .bool b)))

/-- Whether a group-specific expression spans the intercept. -/
def groupSpans (kinds : Component.Kinds) (m : Model) (g : GroupTerm) : Except Fault Bool := do
  if g.expr.isIntercept then return true
  let taken ← m.group.mapM fun t => do
    return (← t.factor.same kinds g.factor) && t.expr.isIntercept
  return !taken.any id

def setData (m : Model) (codings : Codings) : Fit Unit := do
  for e in m.common do
    e.setData (← encodingOf codings e.name)
  for g in m.group do
    g.setData (.uniform (← Fit.withKinds fun kinds => groupSpans kinds m g))

/-- Fits a model to data; the result has the further terms that its codings need. -/
def fit (m : Model) (source : DataSource) (scope : Scope Value) : Fit Model := do
  m.setKinds source scope
  let codings₁ ← Fit.withStore fun σ => codings σ m
  let m ← m.addExtraTerms codings₁ source scope
  let codings₂ ← Fit.withStore fun σ => codings σ m
  m.setData codings₂
  return m

end ModelFormula.Model
