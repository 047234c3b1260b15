import ModelFormula.Model
import ModelFormula.Sublists

/-!
# The algebra of terms

The operators of a formula on its parts. `+` collects, `-` removes, `:` lets interact, `*` collects
and lets interact, `/` nests, `**` lets interact up to a degree, and `|` groups. A model on the left
of `+`, `-`, `/` and `**` is changed by edits, and grouping a model first settles its intercept.
Interactions made by `*` from a term have components of their own; all others share the components
of their operands.
-/
namespace ModelFormula

/-- What operators work on. -/
inductive Operand where
  | part (p : Part)
  | model (m : Model)
  | response (t : Term)
  /-- Anything else, by its class; no operator supports it. -/
  | foreign (className : String)
deriving Inhabited

namespace Operand

inductive Operator where
  | add | sub | mul | interact | nest | power | bar
deriving DecidableEq, Repr

def ofTerm (t : Term) : Operand := part (.effect (.term t))

def ofEffect (e : Effect) : Operand := part (.effect e)

def ofGroup (g : GroupTerm) : Operand := part (.group g)

def text : Operand → Except Fault String
  | part p => p.text
  | model m => m.text
  | response t => Model.responseText t
  | foreign name => .ok name

def same (kinds : Component.Kinds) : Operand → Operand → Except Fault Bool
  | part a, part b => a.same kinds b
  | model a, model b => a.same kinds b
  | response a, response b => a.same kinds b
  | _, _ => .ok false

/-- The class that messages show. -/
def className : Operand → String
  | part (.effect e) => e.className
  | part (.group _) => classText "formulae.terms.terms.GroupSpecificTerm"
  | model _ => classText "formulae.terms.terms.Model"
  | response _ => classText "formulae.terms.terms.Response"
  | foreign name => name

end Operand

open Operand

namespace Term

/-- The interaction of two effects, which must be terms. -/
def interactionOf (a b : Effect) : Fit Term := do
  let left ← a.components
  Fit.newTerm (left ++ (← b.components))

/-- The interaction of copies of the components of two effects. -/
def copiedInteraction (a b : Effect) : Fit Term := do
  let left ← a.components
  let left ← left.mapM Fit.copyComponent
  let right ← b.components
  Fit.newTerm (left ++ (← right.mapM Fit.copyComponent))

/-- All interactions of an effect of the first list with one of the second. -/
def interactions (as bs : List Effect) : Fit (List Term) :=
  (as.flatMap fun a => bs.map fun b => (a, b)).mapM fun (a, b) => interactionOf a b

/-- The group-specific terms of all effects over all factors. -/
def groupings (exprs factors : List Effect) : Fit (List GroupTerm) :=
  (exprs.flatMap fun e => factors.map fun f => (e, f)).mapM fun (e, f) => Fit.newGroup e f

def unsupported {α : Type} : Fit α := throw .unsupported

def sameAs (t : Term) (other : Operand) : Fit Bool :=
  Fit.withKinds fun kinds => (ofTerm t).same kinds other

def add (t : Term) (other : Operand) : Fit Operand := do
  if ← t.sameAs other then return ofTerm t
  match other with
  | .part (.effect (.term u)) => return .model (.ofTerms [t, u])
  | .model m =>
    return .model (← Fit.withKinds ((Model.ofTerms [t]).editAll · (m.parts.map .add)))
  | _ => unsupported

def sub (t : Term) (other : Operand) : Fit Operand := do
  match other with
  | .part (.effect (.term u)) =>
    return if ← Fit.withKinds (t.same · u) then .model {} else ofTerm t
  | .model m =>
    let found ← Fit.withKinds fun kinds =>
      anyM (Part.same kinds · (.effect (.term t))) m.parts
    return if found then .model {} else ofTerm t
  | _ => unsupported

def mul (t : Term) (other : Operand) : Fit Operand := do
  if ← t.sameAs other then return ofTerm t
  match other with
  | .part (.effect (.term u)) =>
    if u.isNumber then throw .numericInteraction
    return .model (.ofTerms [t, u, ← copiedInteraction (.term t) (.term u)])
  | .model m =>
    let products ← m.common.mapM (copiedInteraction (.term t))
    let base := Model.ofEffects (.term t :: m.common)
    let edits := products.map fun p => Model.Edit.add (.effect (.term p))
    return .model (← Fit.withKinds (base.editAll · edits))
  | _ => unsupported

def interact (t : Term) (other : Operand) : Fit Operand := do
  if ← t.sameAs other then return ofTerm t
  match other with
  | .part (.effect (.term u)) =>
    if u.isNumber then throw .numericInteraction
    return ofTerm (← interactionOf (.term t) (.term u))
  | .model m => return .model (.ofTerms (← interactions [.term t] m.common))
  | _ => unsupported

def nest (t : Term) (other : Operand) : Fit Operand := do
  if ← t.sameAs other then return ofTerm t
  match other with
  | .part (.effect (.term u)) =>
    if u.isNumber then throw .numberInteraction
    return .model (.ofTerms [t, ← interactionOf (.term t) (.term u)])
  | .model m => t.add (.model (.ofTerms (← interactions [.term t] m.common)))
  | _ => unsupported

/-- The degree of a power: the components of the operand, of which there should be one. -/
def powerComponents : Operand → Except Fault (List Component)
  | .part (.effect e) => e.components
  | _ => .error .noAttribute

/-- A whole number from one on. -/
def degree? : List Component → Option Nat
  | [c] =>
    match c.name with
    | .int n => if 1 ≤ n then some n.toNat else none
    | _ => none
  | _ => none

/-- A single term is its own power, which deserves a warning. -/
def power (t : Term) (other : Operand) : Fit Operand := do
  match degree? (← powerComponents other) with
  | some n =>
    let degree := toString n
    Fit.warn ("Exponentiation on an individual variable returns the variable as it is.\nUse \x7b"
      ++ t.name ++ "**" ++ degree ++ "\x7d or I(" ++ t.name ++ "**" ++ degree
      ++ ") to compute the math power.")
    return ofTerm t
  | none => unsupported

def bar (t : Term) (other : Operand) : Fit Operand := do
  match other with
  | .part (.effect (.term u)) =>
    let intercept ← Fit.newGroup (← Fit.newIntercept) (.term u)
    return .model (.ofGroups [intercept, ← Fit.newGroup (.term t) (.term u)])
  | .model m =>
    let intercepts ← m.common.mapM fun f => do Fit.newGroup (← Fit.newIntercept) f
    return .model (.ofGroups (intercepts ++ (← groupings [.term t] m.common)))
  | _ => unsupported

def operate (op : Operator) (t : Term) (other : Operand) : Fit Operand :=
  match op with
  | .add => t.add other
  | .sub => t.sub other
  | .mul => t.mul other
  | .interact => t.interact other
  | .nest => t.nest other
  | .power => t.power other
  | .bar => t.bar other

end Term

namespace Effect

/-- An intercept, or a negated one, in front of a model. -/
def addModel (e : Effect) (m : Model) : Fit Operand :=
  return .model (← Fit.withKinds ((Model.ofEffects [e]).editAll · (m.parts.map .add)))

/-- The operators that have the intercept on their left. -/
def operateIntercept (op : Operator) (slot : Nat) (other : Operand) : Fit Operand :=
  let left : Effect := .intercept slot
  match op, other with
  | .add, .part (.effect .negated) => return .model {}
  | .add, .part (.effect (.intercept _)) => return ofEffect left
  | .add, .part p => return .model (.ofParts [.effect left, p])
  | .add, .model m => left.addModel m
  | .sub, .part (.effect (.intercept _)) => return .model {}
  | .sub, .part (.effect .negated) => return ofEffect left
  | .sub, .model m => return if m.common.any isIntercept then .model {} else ofEffect left
  | .bar, .part (.effect (.term t)) => return ofGroup (← Fit.newGroup left (.term t))
  | .bar, .model m => return .model (.ofGroups (← Term.groupings [left] m.common))
  | _, _ => Term.unsupported

/-- The operators that have the negated intercept on their left. -/
def operateNegated (op : Operator) (other : Operand) : Fit Operand :=
  match op, other with
  | .add, .part (.effect .negated) => return ofEffect .negated
  | .add, .part (.effect (.intercept _)) => return .model {}
  | .add, .part p => return .model (.ofParts [.effect .negated, p])
  | .add, .model m => negated.addModel m
  | .bar, _ => throw .groupWithoutIntercept
  | _, _ => Term.unsupported

def operate (op : Operator) (e : Effect) (other : Operand) : Fit Operand :=
  match e with
  | .intercept slot => operateIntercept op slot other
  | .negated => operateNegated op other
  | .term t => t.operate op other

end Effect

namespace Model

/-- The interaction of all the given effects. -/
def mergedTerm (effects : List Effect) : Fit Term := do
  let components ← (effects.mapM Effect.components : Except Fault _)
  Fit.newTerm components.flatten

def addEdits (terms : List Term) : List Edit := terms.map fun t => .add (.effect (.term t))

/-- The edits that an operator makes on the model to its left. -/
def edits (op : Operator) (m : Model) (other : Operand) : Fit (List Edit) := do
  match op, other with
  | .add, .part (.effect .negated) => return [.remove (.effect (← Fit.newIntercept))]
  | .add, .part p => return [.add p]
  | .add, .model o => return o.parts.map .add
  | .sub, .part (.effect .negated) => Term.unsupported
  | .sub, .part p => return [.remove p]
  | .sub, .model o => return o.parts.map .remove
  | .nest, .part (.effect (.term t)) =>
    return addEdits [← Fit.newTerm (m.commonComponents ++ t.components)]
  | .nest, .model o =>
    return addEdits (← o.commonComponents.mapM fun c => Fit.newTerm (m.commonComponents ++ [c]))
  | .power, .part (.effect (.term t)) =>
    match t.components with
    | [_] =>
      match Term.degree? t.components with
      | some n =>
        let sizes := (List.range (min n m.common.length + 1)).drop 2
        return addEdits (← (sizes.flatMap (sublistsOfSize · m.common)).mapM mergedTerm)
      | none => throw .noValue
    | _ => throw .invalidPower
  | .power, _ => throw .invalidPower
  | _, _ => Term.unsupported

/-- The products of a model with some effects, collected after both. -/
def mulEffects (m : Model) (others : List Effect) : Fit Operand := do
  let products ← Term.interactions m.common others
  let base := ofEffects (m.common ++ others)
  return .model (← Fit.withKinds (base.editAll · (addEdits products)))

def mul (m : Model) (other : Operand) : Fit Operand := do
  if ← Fit.withKinds fun kinds => (Operand.model m).same kinds other then return .model m
  match other with
  | .model o =>
    if let [e] := o.common then discard (e.components : Fit _)
    m.mulEffects o.common
  | .part (.effect (.term t)) =>
    if t.isNumber then throw .numericInteraction
    m.mulEffects [.term t]
  | _ => Term.unsupported

def interact (m : Model) (other : Operand) : Fit Operand := do
  match other with
  | .model o => return .model (.ofTerms (← Term.interactions m.common o.common))
  | .part (.effect (.term t)) => return .model (.ofTerms (← Term.interactions m.common [.term t]))
  | _ => Term.unsupported

/-- Grouping a model of several effects settles its intercept: the negated intercept takes itself
and an intercept away, and a model without either gets an intercept in front. -/
def settleIntercept (m : Model) : Fit Model := do
  let withoutFirst (test : Effect → Bool) (es : List Effect) : List Effect :=
    es.eraseP test
  if m.common.any Effect.isNegated then
    let rest := if m.common.any Effect.isIntercept
      then withoutFirst Effect.isIntercept m.common else m.common
    return { m with common := withoutFirst Effect.isNegated rest }
  else if m.common.any Effect.isIntercept then return m
  else return { m with common := (← Fit.newIntercept) :: m.common }

/-- Groups the effects of a model whose intercept is settled. -/
def groupBy (m : Model) (other : Operand) : Fit Operand := do
  match other with
  | .part (.effect (.term t)) => return .model (.ofGroups (← Term.groupings m.common [.term t]))
  | .model o => return .model (.ofGroups (← Term.groupings m.common o.common))
  | _ => Term.unsupported

/-- The operators that change the model to their left. -/
def revises : Operator → Bool
  | .add | .sub | .nest | .power => true
  | _ => false

def operate (op : Operator) (m : Model) (other : Operand) : Fit Operand := do
  match op with
  | .mul => m.mul other
  | .interact => m.interact other
  | .bar =>
    match m.common with
    | [e] => e.operate .bar other
    | _ => (← m.settleIntercept).groupBy other
  | op =>
    let edits ← m.edits op other
    return .model (← Fit.withKinds (m.editAll · edits))

end Model

namespace Operand

/-- The term on the left of a tilde; its component is marked as the response. -/
def asResponse (o : Operand) : Fit Term := do
  match o with
  | .part (.effect (.term t)) =>
    match t.components with
    | [c] =>
      modify fun σ => { σ with
        components := σ.components.modify c.slot fun s => { s with isResponse := true } }
      return t
    | cs => throw (.responseSize cs.length)
  | o => throw (.responseClass o.className)

/-- A response in front of its model. -/
def addToResponse (t : Term) (other : Operand) : Fit Operand :=
  match other with
  | .part (.effect .negated) => Term.unsupported
  | .part p => return .model (.ofParts [p] (some t))
  | .model m => return .model { m with response := some t }
  | _ => Term.unsupported

def operate (op : Operator) (a b : Operand) : Fit Operand :=
  match a with
  | .part (.effect e) => e.operate op b
  | .part (.group _) => Term.unsupported
  | .model m => m.operate op b
  | .response t => if op == .add then addToResponse t b else Term.unsupported
  | .foreign _ => Term.unsupported

end Operand

end ModelFormula
