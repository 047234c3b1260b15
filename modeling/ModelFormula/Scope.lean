import ModelFormula.Datum
import ModelFormula.Error

/-!
# Scopes

A scope is a chain of layers that bind names; the first layer with a name decides. Layers have an
identity, by which scopes are compared. Extending a scope puts a layer behind all others, so it can
only bind names that were not bound before.
-/
namespace ModelFormula

structure Layer (α : Type) where
  id : Nat
  bindings : List (String × α)
deriving Inhabited

namespace Layer

variable {α : Type}

def get? (layer : Layer α) (name : String) : Option α :=
  (layer.bindings.find? (·.1 == name)).map (·.2)

/-- Binds a name anew where it stands, or at the end. -/
def set (layer : Layer α) (name : String) (value : α) : Layer α :=
  if layer.bindings.any (·.1 == name) then
    { layer with bindings := layer.bindings.map fun (k, v) => (k, if k == name then value else v) }
  else { layer with bindings := layer.bindings ++ [(name, value)] }

def names (layer : Layer α) : List String := layer.bindings.map (·.1)

end Layer

structure Scope (α : Type) where
  layers : List (Layer α)
deriving Inhabited

namespace Scope

variable {α : Type}

def get? (scope : Scope α) (name : String) : Option α :=
  scope.layers.findSome? (·.get? name)

def get (scope : Scope α) (name : String) : Except Fault α :=
  match scope.get? name with
  | some v => .ok v
  | none => .error (.unknownName name)

/-- The scope with one more layer behind all others. -/
def extend (scope : Scope α) (outer : Layer α) : Scope α := ⟨scope.layers ++ [outer]⟩

/-- The scope with a new empty layer in front, which takes what is set. -/
def writable (scope : Scope α) : Scope α := ⟨⟨0, []⟩ :: scope.layers⟩

def set (scope : Scope α) (name : String) (value : α) : Scope α :=
  match scope.layers with
  | [] => scope
  | front :: rest => ⟨front.set name value :: rest⟩

/-- The names of every layer. -/
def names (scope : Scope α) : List (List String) := scope.layers.map Layer.names

/-- Scopes are the same if they are chains of the same layers. -/
def same (a b : Scope α) : Bool := a.layers.map (·.id) == b.layers.map (·.id)

/-- The layers of plain data as text. -/
def text (scope : Scope Datum) : String :=
  "VarLookupDict(" ++ (Datum.list (scope.layers.map fun l => .record l.bindings)).quoted ++ ")"

/-- The scope of the caller that is the given number of calls away, counted from the innermost
frame. Below it there is only the frame of this operation, which binds nothing. -/
def capture (frames : List (Layer α)) (distance : Datum) (reference : Int) :
    Except Fault (Scope α) :=
  match distance.int? with
  | none => .error .scopeType
  | some n =>
    match n + reference with
    | .negSucc _ => .ok ⟨[]⟩
    | .ofNat i =>
      match frames[i]? with
      | some frame => .ok ⟨[frame]⟩
      | none => .error .scopeDepth

@[simp] theorem get?_extend (scope : Scope α) (outer : Layer α) (name : String) :
    (scope.extend outer).get? name = (scope.get? name).or (outer.get? name) := by
  simp only [extend, get?, List.findSome?_append]
  congr 1
  cases found : outer.get? name <;> simp [found]

end Scope

end ModelFormula
