import ModelFormula.Literal

/-!
# Hash keys

What an object is hashed by: literals, absent values, and tuples of keys. Two objects have the same
hash if their keys are equal.
-/
namespace ModelFormula

inductive HashKey where
  | absent
  | leaf (literal : Literal)
  | tuple (items : List HashKey)
deriving Repr

namespace HashKey

mutual

def same : HashKey → HashKey → Bool
  | absent, absent => true
  | leaf v, leaf w => v == w
  | tuple ks, tuple ls => sameAll ks ls
  | _, _ => false

def sameAll : List HashKey → List HashKey → Bool
  | [], [] => true
  | k :: ks, l :: ls => same k l && sameAll ks ls
  | _, _ => false

end

instance : BEq HashKey := ⟨same⟩

def ofText (s : String) : HashKey := .leaf (.text s)

end HashKey

end ModelFormula
