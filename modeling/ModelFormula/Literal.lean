import ModelFormula.Decimal.Shortest
import ModelFormula.Text.Quoted

/-!
# Literals

Numbers and texts written in a formula. They are also the names of variables, since a column may be
named by a number. An integer and a fraction are equal if they are the same number.
-/
namespace ModelFormula

inductive Literal where
  | int (n : Int)
  | float (x : Float)
  | text (s : String)
deriving Repr, Inhabited

namespace Literal

/-- An integer equals a fraction only if no rounding is needed. -/
def intEqFloat (n : Int) (x : Float) : Bool :=
  x.isFinite && Decimal.compareInt n x == .eq

def same : Literal → Literal → Bool
  | int m, int n => m == n
  | float x, float y => x == y
  | int n, float x | float x, int n => intEqFloat n x
  | text s, text t => s == t
  | _, _ => false

instance : BEq Literal := ⟨same⟩

def text? : Literal → Option String
  | text s => some s
  | _ => none

def isNumber : Literal → Bool
  | text _ => false
  | _ => true

/-- The bare text. -/
def plain : Literal → String
  | int n => toString n
  | float x => Decimal.shortText x
  | text s => s

/-- The text inside a list or behind an equals sign. -/
def quoted : Literal → String
  | text s => Text.quoted s
  | l => l.plain

end Literal

end ModelFormula
