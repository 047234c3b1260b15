import ModelFormula.Component
import ModelFormula.Text.Lines

/-!
# Terms

A term is the interaction of its components. The effects of a model are terms, the intercept and the
negated intercept, which removes one. A group-specific term lets an effect vary over the levels of a
factor.
-/
namespace ModelFormula

/-- The first item that the test accepts, seen from the left, decides. -/
def anyM {α : Type} (test : α → Except Fault Bool) : List α → Except Fault Bool
  | [] => .ok false
  | x :: xs => do
    if ← test x then return true
    anyM test xs

/-- Removes the first item that the test accepts. -/
def eraseM {α : Type} (test : α → Except Fault Bool) : List α → Except Fault (List α)
  | [] => .ok []
  | x :: xs => do
    if ← test x then return xs
    return x :: (← eraseM test xs)

/-- Lists are equal if they are equally long and their items are. -/
def sameListM {α : Type} (same : α → α → Except Fault Bool) (xs ys : List α) :
    Except Fault Bool :=
  if xs.length != ys.length then .ok false else go xs ys
where
  go : List α → List α → Except Fault Bool
    | x :: xs, y :: ys => do
      if !(← same x y) then return false
      go xs ys
    | _, _ => .ok true

structure Term where
  slot : Nat
  components : List Component
deriving Inhabited

namespace Term

def name (t : Term) : String := ":".intercalate (t.components.map (·.name.plain))

def same (kinds : Component.Kinds) (a b : Term) : Except Fault Bool :=
  sameListM (Component.same kinds) a.components b.components

def key (kinds : Component.Kinds) (t : Term) : Except Fault HashKey :=
  (t.components.mapM (Component.key kinds)).map .tuple

def text (t : Term) : Except Fault String := do
  return "Term([" ++ ", ".intercalate (← t.components.mapM Component.text) ++ "])"

def varNames (t : Term) : Except Fault (List Literal) :=
  (t.components.mapM Component.varNames).map List.flatten

/-- Components without later repetitions. -/
def distinct (kinds : Component.Kinds) (components : List Component) :
    Except Fault (List Component) :=
  components.foldlM (fun kept c => do
    if ← anyM (Component.same kinds · c) kept then return kept
    return kept ++ [c]) []

/-- The term of a single component that is named by a number. -/
def isNumber (t : Term) : Bool :=
  match t.components with
  | [c] => c.name.isNumber
  | _ => false

def component? (t : Term) (name : Literal) : Option Component :=
  t.components.find? (·.name == name)

end Term

inductive Effect where
  | intercept (slot : Nat)
  | negated
  | term (t : Term)
deriving Inhabited

namespace Effect

def name : Effect → String
  | intercept _ => "Intercept"
  | negated => "NegatedIntercept"
  | term t => t.name

def same (kinds : Component.Kinds) : Effect → Effect → Except Fault Bool
  | intercept _, intercept _ => .ok true
  | negated, negated => .ok true
  | term a, term b => a.same kinds b
  | _, _ => .ok false

/-- A negated intercept cannot be hashed. -/
def key (kinds : Component.Kinds) : Effect → Except Fault HashKey
  | intercept _ => .ok (.ofText "intercept")
  | negated => .error .unsupported
  | term t => t.key kinds

def text : Effect → Except Fault String
  | intercept _ => .ok "Intercept()"
  | negated => .ok "NegatedIntercept()"
  | term t => t.text

def varNames : Effect → Except Fault (List Literal)
  | term t => t.varNames
  | _ => .ok []

/-- Only a term has components. -/
def components : Effect → Except Fault (List Component)
  | term t => .ok t.components
  | _ => .error .noAttribute

def term? : Effect → Option Term
  | term t => some t
  | _ => none

def isIntercept : Effect → Bool
  | intercept _ => true
  | _ => false

def isNegated : Effect → Bool
  | negated => true
  | _ => false

/-- The class that messages show. -/
def className : Effect → String
  | intercept _ => classText "formulae.terms.terms.Intercept"
  | negated => classText "formulae.terms.terms.NegatedIntercept"
  | term _ => classText "formulae.terms.terms.Term"

end Effect

structure GroupTerm where
  slot : Nat
  expr : Effect
  factor : Effect
deriving Inhabited

namespace GroupTerm

def name (g : GroupTerm) : Except Fault String := do
  let left ← match g.expr with
    | .intercept _ => .ok "1"
    | .term t => .ok t.name
    | .negated => .error .invalidExpression
  match g.factor with
  | .term t => .ok (left ++ "|" ++ t.name)
  | _ => .error .invalidFactor

def same (kinds : Component.Kinds) (a b : GroupTerm) : Except Fault Bool := do
  if !(← a.expr.same kinds b.expr) then return false
  a.factor.same kinds b.factor

def key (kinds : Component.Kinds) (g : GroupTerm) : Except Fault HashKey := do
  let expr ← g.expr.key kinds
  return .tuple [expr, ← g.factor.key kinds]

def text (g : GroupTerm) : Except Fault String := do
  let expr ← g.expr.text
  let factor ← g.factor.text
  return "GroupSpecificTerm(\n  expr= " ++ Text.indentRest expr ++ ",\n  factor= "
    ++ Text.indentRest factor ++ "\n)"

def varNames (g : GroupTerm) : Except Fault (List Literal) := do
  let expr ← g.expr.varNames
  return expr ++ (← g.factor.varNames)

end GroupTerm

/-- What a model is made of. -/
inductive Part where
  | effect (e : Effect)
  | group (g : GroupTerm)
deriving Inhabited

namespace Part

def same (kinds : Component.Kinds) : Part → Part → Except Fault Bool
  | effect a, effect b => a.same kinds b
  | group a, group b => a.same kinds b
  | _, _ => .ok false

def key (kinds : Component.Kinds) : Part → Except Fault HashKey
  | effect e => e.key kinds
  | group g => g.key kinds

def text : Part → Except Fault String
  | effect e => e.text
  | group g => g.text

def varNames : Part → Except Fault (List Literal)
  | effect e => e.varNames
  | group g => g.varNames

end Part

end ModelFormula
