import ModelFormula.Component.State
import ModelFormula.Term

/-!
# The store

What fitting finds out about the parts of a model, by slot, and the messages logged on the way. A
computation that stops with a fault keeps what it has changed and logged before.
-/
namespace ModelFormula

/-- What is known about a term, an intercept or a group-specific term. -/
structure Part.State where
  kind : Option Kind := none
  data : Option Block := none
  /-- The number of rows, which an intercept has to know. -/
  height : Option Nat := none
  /-- The groups of a group-specific term. -/
  groups : Option (List String) := none
deriving Inhabited

structure Store where
  components : Array Component.State := #[]
  parts : Array Part.State := #[]
  /-- Messages, the latest first. -/
  messages : List String := []
deriving Inhabited

/-- Computations over a store. -/
abbrev Fit := ExceptT Fault (StateM Store)

namespace Store

def kinds (σ : Store) : Component.Kinds := fun slot => (σ.components[slot]?).bind (·.kind)

def component (σ : Store) (slot : Nat) : Component.State := σ.components[slot]?.getD {}

def part (σ : Store) (slot : Nat) : Part.State := σ.parts[slot]?.getD {}

def log (σ : Store) : List String := σ.messages.reverse

end Store

namespace Fit

/-- Runs a computation that needs only the known kinds. -/
def withKinds {α : Type} (f : Component.Kinds → Except Fault α) : Fit α := do
  ExceptT.mk (pure (f (← get).kinds))

def warn (message : String) : Fit Unit :=
  modify fun σ => { σ with messages := message :: σ.messages }

/-- A new component in its initial state. -/
def newComponent (atom : Atom) (isResponse : Bool := false) : Fit Component := do
  let slot := (← get).components.size
  modify fun σ => { σ with components := σ.components.push { isResponse } }
  return ⟨slot, atom⟩

/-- A component with a slot and state of its own, equal to the given one. -/
def copyComponent (c : Component) : Fit Component := do
  let σ ← get
  modify fun σ => { σ with components := σ.components.push (σ.components[c.slot]?.getD {}) }
  return ⟨σ.components.size, c.atom⟩

def newSlot : Fit Nat := do
  let slot := (← get).parts.size
  modify fun σ => { σ with parts := σ.parts.push {} }
  return slot

/-- A step of a component on its state in the store. -/
def step {α : Type} (c : Component) (action : Component.Step α) : Fit α := do
  let (result, st) := action.run.run ((← get).component c.slot)
  modify fun σ => { σ with components := σ.components.setIfInBounds c.slot st }
  ExceptT.mk (pure result)

def setPart (slot : Nat) (change : Part.State → Part.State) : Fit Unit :=
  modify fun σ => { σ with parts := σ.parts.setIfInBounds slot (change (σ.part slot)) }

/-- Runs a computation that only looks at the store. -/
def withStore {α : Type} (f : Store → Except Fault α) : Fit α := do
  ExceptT.mk (pure (f (← get)))

/-- The term of the given components, which drops repetitions. -/
def newTerm (components : List Component) : Fit Term := do
  let kept ← withKinds (Term.distinct · components)
  return ⟨← newSlot, kept⟩

def newIntercept : Fit Effect := return .intercept (← newSlot)

def newGroup (expr factor : Effect) : Fit GroupTerm := return ⟨← newSlot, expr, factor⟩

end Fit

end ModelFormula
