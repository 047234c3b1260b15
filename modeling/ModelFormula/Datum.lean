import ModelFormula.Literal

/-!
# Data

The plain values of a program that uses the library: what a cell of a data frame holds, what a
namespace binds, what a call may receive. Truth values count as the numbers 0 and 1, and numbers are
equal if their values are.
-/
namespace ModelFormula

inductive Datum where
  | null
  | bool (b : Bool)
  | int (n : Int)
  | float (x : Float)
  /-- A power of a negative number may leave the real ones. -/
  | complex (re im : Float)
  | text (s : String)
  | list (items : List Datum)
  | record (fields : List (String × Datum))
deriving Inhabited, Repr

namespace Datum

def ofLiteral : Literal → Datum
  | .int n => int n
  | .float x => float x
  | .text s => text s

/-- A value that can also be written in a formula. -/
def literal? : Datum → Option Literal
  | int n => some (.int n)
  | float x => some (.float x)
  | text s => some (.text s)
  | _ => none

def ofBool (b : Bool) : Int := if b then 1 else 0

/-- The integer that a value counts as. -/
def int? : Datum → Option Int
  | bool b => some (ofBool b)
  | int n => some n
  | _ => none

/-- The number that a value counts as, rounded to the floating point format. -/
def float? : Datum → Option Float
  | bool b => some (if b then 1.0 else 0.0)
  | int n => some (Decimal.ofInt n)
  | float x => some x
  | _ => none

/-- The real and the imaginary part of a number. -/
def complex? : Datum → Option (Float × Float)
  | complex re im => some (re, im)
  | d => d.float?.map fun x => (x, 0.0)

def text? : Datum → Option String
  | text s => some s
  | _ => none

def isMissing : Datum → Bool
  | null => true
  | float x => x.isNaN
  | _ => false

mutual

def same : Datum → Datum → Bool
  | null, null => true
  | text s, text t => s == t
  | list xs, list ys => sameItems xs ys
  | record xs, record ys => xs.length == ys.length && sameFields xs ys
  | bool a, bool b => a == b
  | bool a, int n | int n, bool a => n == ofBool a
  | int m, int n => m == n
  | float x, float y => x == y
  | bool a, float x | float x, bool a => Literal.intEqFloat (ofBool a) x
  | int n, float x | float x, int n => Literal.intEqFloat n x
  | complex a b, complex c d => a == c && b == d
  | complex a b, float x | float x, complex a b => a == x && b == 0.0
  | complex a b, int n | int n, complex a b => Literal.intEqFloat n a && b == 0.0
  | complex a b, bool c | bool c, complex a b => Literal.intEqFloat (ofBool c) a && b == 0.0
  | _, _ => false

def sameItems : List Datum → List Datum → Bool
  | [], [] => true
  | x :: xs, y :: ys => same x y && sameItems xs ys
  | _, _ => false

def sameFields : List (String × Datum) → List (String × Datum) → Bool
  | [], _ => true
  | (k, x) :: xs, ys =>
    (match lookup? k ys with
      | some y => same x y
      | none => false) && sameFields xs ys
where
  lookup? (k : String) (ys : List (String × Datum)) : Option Datum :=
    (ys.find? (·.1 == k)).map (·.2)

end

instance : BEq Datum := ⟨same⟩

/-- The order of numbers and of texts; values of other or different sorts have none. -/
def less? : Datum → Datum → Option Bool
  | text s, text t => some (s < t)
  | float x, float y => some (x < y)
  | float x, b => (int? b).map fun n =>
      if x.isNaN then false else if x.isInf then x < 0.0 else Decimal.compareInt n x == .gt
  | a, float y => (int? a).map fun m =>
      if y.isNaN then false else if y.isInf then 0.0 < y else Decimal.compareInt m y == .lt
  | list xs, list ys => lessItems? xs ys
  | a, b => do
    let m ← int? a
    let n ← int? b
    return m < n
where
  lessItems? : List Datum → List Datum → Option Bool
    | [], ys => some (!ys.isEmpty)
    | _ :: _, [] => some false
    | x :: xs, y :: ys => if same x y then lessItems? xs ys else less? x y

/-- Data that have no order are not below each other. -/
instance : LT Datum := ⟨fun a b => a.less? b = some true⟩

instance : DecidableLT Datum := fun a b => inferInstanceAs (Decidable (a.less? b = some true))

/-- What counts as false: nothing, zero and whatever is empty. -/
def truthy : Datum → Bool
  | null => false
  | bool b => b
  | int n => n != 0
  | float x => x != 0.0
  | complex re im => re != 0.0 || im != 0.0
  | text s => !s.isEmpty
  | list xs => !xs.isEmpty
  | record xs => !xs.isEmpty

/-- A part of a complex number; a whole one has no point. -/
def complexPart (x : Float) : String :=
  let s := Decimal.shortText x
  if s.endsWith ".0" then (s.dropEnd 2).toString else s

/-- Both parts in parentheses, or only the imaginary one if the other is zero. -/
def complexText (re im : Float) : String :=
  let tail := complexPart im ++ "j"
  if re == 0.0 && !Decimal.signBit re then tail
  else "(" ++ complexPart re ++ (if tail.startsWith "-" then tail else "+" ++ tail) ++ ")"

mutual

/-- The text inside a list, where texts are quoted. -/
def quoted : Datum → String
  | null => "None"
  | bool b => if b then "True" else "False"
  | int n => toString n
  | float x => Decimal.shortText x
  | complex re im => complexText re im
  | text s => Text.quoted s
  | list xs => "[" ++ ", ".intercalate (quotedItems xs) ++ "]"
  | record fields => "\x7b" ++ ", ".intercalate (quotedFields fields) ++ "\x7d"

def quotedItems : List Datum → List String
  | [] => []
  | x :: xs => quoted x :: quotedItems xs

def quotedFields : List (String × Datum) → List String
  | [] => []
  | (k, x) :: xs => (Text.quoted k ++ ": " ++ quoted x) :: quotedFields xs

end

/-- The bare text. -/
def plain : Datum → String
  | text s => s
  | d => d.quoted

/-- The class that messages show for a value. -/
def className : Datum → String
  | null => "NoneType"
  | bool _ => "bool"
  | int _ => "int"
  | float _ => "float"
  | complex _ _ => "complex"
  | text _ => "str"
  | list _ => "list"
  | record _ => "dict"

end Datum

end ModelFormula
