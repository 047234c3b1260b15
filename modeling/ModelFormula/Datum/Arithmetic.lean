import ModelFormula.CallExpr

/-!
# Arithmetic on plain data

Whole numbers are unbounded, a quotient of whole numbers is the nearest floating point number, and
`+` and `*` also join and repeat texts and lists. What an operation does not support is a fault.
-/
namespace ModelFormula.Datum

open CallExpr (Operator Sign)

/-- A value joined to itself the given number of times. -/
def repeated {α : Type} (n : Int) (xs : List α) : List α := (List.replicate n.toNat xs).flatten

/-- An operation on complex numbers. -/
abbrev ComplexOp := Float × Float → Float × Float → Except Fault Datum

/-- An operation on whole numbers if both values count as such, else on floating point numbers, else
on complex ones. -/
def numeric (ints : Int → Int → Except Fault Datum) (floats : Float → Float → Except Fault Datum)
    (complexes : ComplexOp) (a b : Datum) : Except Fault Datum :=
  match a.int?, b.int? with
  | some m, some n => ints m n
  | _, _ =>
    match a.float?, b.float? with
    | some x, some y => floats x y
    | _, _ =>
      match a.complex?, b.complex? with
      | some z, some w => complexes z w
      | _, _ => .error .unsupported

def ofParts (z : Float × Float) : Datum := complex z.1 z.2

def complexMul (z w : Float × Float) : Float × Float :=
  (z.1 * w.1 - z.2 * w.2, z.1 * w.2 + z.2 * w.1)

def complexDiv (z w : Float × Float) : Except Fault Datum :=
  let d := w.1 * w.1 + w.2 * w.2
  if d == 0.0 then .error .divisionByZero
  else .ok (.complex ((z.1 * w.1 + z.2 * w.2) / d) ((z.2 * w.1 - z.1 * w.2) / d))

/-- Powers in polar form. -/
def complexPower (z w : Float × Float) : Except Fault Datum :=
  if w.1 == 0.0 && w.2 == 0.0 then .ok (.complex 1.0 0.0)
  else if z.1 == 0.0 && z.2 == 0.0 then
    if w.1 < 0.0 || w.2 != 0.0 then .error .divisionByZero else .ok (.complex 0.0 0.0)
  else
    let size := (z.1 * z.1 + z.2 * z.2).sqrt
    let angle := Float.atan2 z.2 z.1
    let length := size ^ w.1 / (angle * w.2).exp
    let phase := angle * w.1 + w.2 * size.log
    .ok (.complex (length * phase.cos) (length * phase.sin))

/-- The floating point number nearest to a quotient of whole numbers. -/
def quotient (m n : Int) : Float :=
  let q := Decimal.nearest m.natAbs n.natAbs
  if (m < 0) != (n < 0) then -q else q

/-- Powers of floating point numbers; squares are products. -/
def floatPower (x y : Float) : Float := if y == 2.0 then x * x else x ^ y

/-- Whether a power of floating point numbers is complex. -/
def leavesReals (x y : Float) : Bool := x < 0.0 && y.isFinite && x.isFinite && y.floor != y

def power (a b : Datum) : Except Fault Datum :=
  let floats (x y : Float) : Except Fault Datum :=
    if x == 0.0 && y < 0.0 then .error .divisionByZero
    else if leavesReals x y then complexPower (x, 0.0) (y, 0.0)
    else .ok (.float (floatPower x y))
  numeric (fun m n =>
    if 0 ≤ n then .ok (.int (m.pow n.toNat)) else floats (Decimal.ofInt m) (Decimal.ofInt n))
    floats complexPower a b

def divide (a b : Datum) : Except Fault Datum :=
  numeric (fun m n => if n = 0 then .error .divisionByZero else .ok (.float (quotient m n)))
    (fun x y => if y == 0.0 then .error .divisionByZero else .ok (.float (x / y))) complexDiv a b

def sum (a b : Datum) : Except Fault Datum :=
  numeric (fun m n => .ok (.int (m + n))) (fun x y => .ok (.float (x + y)))
    (fun z w => .ok (.complex (z.1 + w.1) (z.2 + w.2))) a b

def difference (a b : Datum) : Except Fault Datum :=
  numeric (fun m n => .ok (.int (m - n))) (fun x y => .ok (.float (x - y)))
    (fun z w => .ok (.complex (z.1 - w.1) (z.2 - w.2))) a b

def product (a b : Datum) : Except Fault Datum :=
  numeric (fun m n => .ok (.int (m * n))) (fun x y => .ok (.float (x * y)))
    (fun z w => .ok (ofParts (complexMul z w))) a b

def less (a b : Datum) : Except Fault Bool :=
  match a.less? b with
  | some r => .ok r
  | none => .error .unsupported

def binary (op : Operator) (a b : Datum) : Except Fault Datum :=
  match op, a, b with
  | .add, text s, text t => .ok (text (s ++ t))
  | .add, list xs, list ys => .ok (list (xs ++ ys))
  | .add, a, b => sum a b
  | .sub, a, b => difference a b
  | .mul, text s, b | .mul, b, text s =>
    match b.int? with
    | some n => .ok (text (String.ofList (repeated n s.toList)))
    | none => .error .unsupported
  | .mul, list xs, b | .mul, b, list xs =>
    match b.int? with
    | some n => .ok (list (repeated n xs))
    | none => .error .unsupported
  | .mul, a, b => product a b
  | .div, a, b => divide a b
  | .pow, a, b => power a b
  | .eq, a, b => .ok (bool (a == b))
  | .ne, a, b => .ok (bool (!(a == b)))
  | .lt, a, b => (less a b).map bool
  | .gt, a, b => (less b a).map bool
  | .le, a, b => do return bool ((← less a b) || a == b)
  | .ge, a, b => do return bool ((← less b a) || a == b)

def unary (sign : Sign) (a : Datum) : Except Fault Datum :=
  match sign, a with
  | .plus, float x => .ok (float x)
  | .minus, float x => .ok (float (-x))
  | .plus, complex re im => .ok (complex re im)
  | .minus, complex re im => .ok (complex (-re) (-im))
  | sign, a =>
    match a.int? with
    | some n => .ok (int (if sign == .minus then -n else n))
    | none => .error .unsupported

end ModelFormula.Datum
