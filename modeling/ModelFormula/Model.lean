import ModelFormula.Store

/-!
# Models

A model has common effects, group-specific terms and possibly a response, which is a term of one
component. Adding a part keeps the parts distinct; changes of a model are edits, applied one after
the other.
-/
namespace ModelFormula

structure Model where
  common : List Effect := []
  group : List GroupTerm := []
  response : Option Term := none
deriving Inhabited

namespace Model

def ofParts (parts : List Part) (response : Option Term := none) : Model where
  common := parts.filterMap fun | .effect e => some e | .group _ => none
  group := parts.filterMap fun | .effect _ => none | .group g => some g
  response := response

def ofEffects (effects : List Effect) : Model := { common := effects }

def ofTerms (terms : List Term) : Model := { common := terms.map .term }

def ofGroups (groups : List GroupTerm) : Model := { group := groups }

def parts (m : Model) : List Part := m.common.map .effect ++ m.group.map .group

/-- The components of all common terms. -/
def commonComponents (m : Model) : List Component :=
  m.common.flatMap fun e => (e.term?.map (·.components)).getD []

def responseText (t : Term) : Except Fault String := do return "Response(" ++ (← t.text) ++ ")"

def text (m : Model) : Except Fault String := do
  let common ← m.common.mapM Effect.text
  let all := match m.response with
    | some t => do return (← responseText t) :: common
    | none => .ok common
  let head := ",\n  ".intercalate (← all)
  let group ← m.group.mapM GroupTerm.text
  let tail := Text.indentRest (",\n".intercalate group)
  let separator := if group.isEmpty || head.isEmpty then "" else ",\n  "
  return "Model(\n  " ++ head ++ separator ++ tail ++ "\n)"

/-- The names of the columns that a model uses, with repetitions. -/
def varNames (m : Model) : Except Fault (List Literal) := do
  let parts ← m.parts.mapM Part.varNames
  match m.response with
  | some t => return parts.flatten ++ (← t.varNames)
  | none => return parts.flatten

/-- The parts as a set: of equal ones the first is kept, and only parts with the same hash are
compared. -/
def partSet (kinds : Component.Kinds) (m : Model) : Except Fault (List (HashKey × Part)) :=
  m.parts.foldlM (fun kept p => do
    let key ← p.key kinds
    if ← anyM (fun (key', p') => if key' == key then p'.same kinds p else .ok false) kept then
      return kept
    return kept ++ [(key, p)]) []

/-- Models are equal if they have the same parts, in whatever order, and the same response. -/
def same (kinds : Component.Kinds) (a b : Model) : Except Fault Bool := do
  let as ← a.partSet kinds
  let bs ← b.partSet kinds
  let missing ← if as.length != bs.length then .ok true
    else anyM (fun (key, p) => do
      return !(← anyM (fun (key', p') => if key' == key then p'.same kinds p else .ok false) bs)) as
  let response ← match a.response, b.response with
    | some s, some t => s.same kinds t
    | none, none => .ok true
    | _, _ => .ok false
  return !missing && response

/-- A change of a model. -/
inductive Edit where
  | add (p : Part)
  | remove (p : Part)
deriving Inhabited

/-- Adds a part unless an equal one is there; a negated intercept cannot be added. -/
def add (kinds : Component.Kinds) (m : Model) : Part → Except Fault Model
  | .group g => do
    if ← anyM (GroupTerm.same kinds · g) m.group then return m
    return { m with group := m.group ++ [g] }
  | .effect .negated => .error (.addedTerm Effect.negated.className)
  | .effect e => do
    if ← anyM (Effect.same kinds · e) m.common then return m
    return { m with common := m.common ++ [e] }

/-- Removes a part if an equal one is there. -/
def remove (kinds : Component.Kinds) (m : Model) : Part → Except Fault Model
  | .group g => do return { m with group := ← eraseM (GroupTerm.same kinds · g) m.group }
  | .effect e => do return { m with common := ← eraseM (Effect.same kinds · e) m.common }

def edit (kinds : Component.Kinds) (m : Model) : Edit → Except Fault Model
  | .add p => m.add kinds p
  | .remove p => m.remove kinds p

def editAll (kinds : Component.Kinds) (m : Model) (edits : List Edit) : Except Fault Model :=
  edits.foldlM (edit kinds) m

end Model

end ModelFormula
