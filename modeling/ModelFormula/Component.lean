import ModelFormula.CallExpr
import ModelFormula.Kind

/-!
# Components

A component of a term is a variable, possibly with a reference level, or a call. Terms may share a
component: its slot says which occurrences are one and the same, and the state that fitting gives to
it is kept by slot. Variables are equal only if they are of the same kind, so equality depends on
what the slots are known to be.
-/
namespace ModelFormula

/-- What a term holds in the place of a component: the part of a model that it is shows by its
class, its name, its text and the columns that it uses. -/
structure Stray where
  className : String
  name : String
  text : String
  varNames : List Literal
deriving BEq, Inhabited

inductive Atom where
  | variable (name : Literal) (reference : Option Literal)
  | call (expr : CallExpr)
  | stray (s : Stray)
deriving Inhabited

structure Component where
  slot : Nat
  atom : Atom
deriving Inhabited

namespace Component

/-- The kinds that slots are known to have. -/
abbrev Kinds := Nat → Option Kind

def name (c : Component) : Literal :=
  match c.atom with
  | .variable name _ => name
  | .call e => .text e.text
  | .stray s => .text s.name

def reference? (c : Component) : Option Literal :=
  match c.atom with
  | .variable _ reference => reference
  | _ => none

def same (kinds : Kinds) (a b : Component) : Except Fault Bool :=
  match a.atom, b.atom with
  | .variable n r, .variable n' r' => .ok (kinds a.slot == kinds b.slot && n == n' && r == r')
  | .call e, .call e' => e.same e'
  | .stray s, .stray s' => .ok (s == s')
  | _, _ => .ok false

def key (kinds : Kinds) (c : Component) : Except Fault HashKey :=
  match c.atom with
  | .variable n r =>
    let leaf? (l : Option Literal) : HashKey := (l.map .leaf).getD .absent
    .ok (.tuple [leaf? ((kinds c.slot).map fun k => .text k.text), .leaf n, leaf? r])
  | .call e => e.key
  | .stray s => .ok (.tuple [.ofText s.className, .ofText s.text])

/-- A variable named by a number shows no reference. -/
def text (c : Component) : Except Fault String :=
  match c.atom with
  | .variable n none => .ok ("Variable(" ++ n.plain ++ ")")
  | .variable (.text n) (some r) => .ok ("Variable(" ++ n ++ ", reference='" ++ r.plain ++ "')")
  | .variable _ (some _) => .error .unsupported
  | .call e => .ok ("Call(" ++ e.text ++ ")")
  | .stray s => .ok s.text

/-- The names of the columns that a component uses. -/
def varNames (c : Component) : Except Fault (List Literal) :=
  match c.atom with
  | .variable n _ => .ok [n]
  | .call e => e.allNames.map (·.map .text)
  | .stray s => .ok s.varNames

end Component

end ModelFormula
