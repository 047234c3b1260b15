import ModelFormula.Scalar

/-!
# Orthogonal polynomials

Polynomials of increasing degree that are orthogonal over the points of a column, by their
three-term recurrence. The coefficients of the recurrence are remembered by index, so that the
polynomials that a first column gives can be evaluated on other columns.
-/
namespace ModelFormula.Polynomial

variable {K : Type} [Scalar K]

/-- The coefficients of the recurrence that are known, by index. -/
structure Memory (K : Type) where
  alpha : List (Nat × K) := []
  norms : List (Nat × K) := []
deriving Inhabited

def known? (known : List (Nat × K)) (k : Nat) : Option K := (known.find? (·.1 == k)).map (·.2)

def squares (p : List K) : List K := p.map fun v => v * v

/-- How sums over the column of points are taken. -/
abbrev Summation (K : Type) := List K → K

/-- The remembered mean of the points, weighted by the squares of a polynomial. -/
def alphaOf (total : Summation K) (xs p : List K) (k : Nat) (m : Memory K) : K × Memory K :=
  match known? m.alpha k with
  | some a => (a, m)
  | none =>
    let a := total (List.zipWith (· * ·) xs (squares p)) / Scalar.sum (squares p)
    (a, { m with alpha := m.alpha ++ [(k, a)] })

/-- The remembered sum of squares of a polynomial. -/
def normOf (p : List K) (k : Nat) (m : Memory K) : K × Memory K :=
  match known? m.norms k with
  | some n => (n, m)
  | none =>
    let n := Scalar.sum (squares p)
    (n, { m with norms := m.norms ++ [(k, n)] })

/-- The next polynomial after those of degree `k - 1` and `k`. -/
def next (total : Summation K) (xs : List K) (k : Nat) (before : Option (List K)) (p : List K)
    (m : Memory K) : List K × Memory K :=
  let (a, m) := alphaOf total xs p k m
  let q := List.zipWith (fun x v => (x - a) * v) xs p
  match before with
  | none => (q, m)
  | some o =>
    let (n, m) := normOf p k m
    let (n', m) := normOf o (k - 1) m
    let beta := n / n'
    (List.zipWith (fun u v => u - beta * v) q o, m)

/-- The polynomials after the one of degree `k`, as many as asked for. -/
def following (total : Summation K) (xs : List K) :
    Nat → Nat → Option (List K) → List K → Memory K → List (List K) × Memory K
  | 0, _, _, _, m => ([], m)
  | n + 1, k, before, p, m =>
    let (q, m) := next total xs k before p m
    let (rest, m) := following total xs n (k + 1) (some p) q m
    (q :: rest, m)

/-- The polynomials of degree 0 up to the given one, before scaling. -/
def monic (total : Summation K) (xs : List K) (degree : Nat) (m : Memory K) :
    List (List K) × Memory K :=
  let one := xs.map fun _ => Scalar.ofNat 1
  let (rest, m) := following total xs degree 0 none one m
  (one :: rest, m)

/-- The norms of all polynomials, in order. -/
def allNorms (ps : List (List K)) (m : Memory K) : List K × Memory K :=
  ps.zipIdx.foldl (fun (ns, m) (p, k) =>
    let (n, m) := normOf p k m
    (ns ++ [n], m)) ([], m)

/-- The polynomials of degree 1 up to the given one, scaled by the roots of the norms. -/
def scaled (root : K → K) (total : Summation K) (xs : List K) (degree : Nat) (m : Memory K) :
    List (List K) × Memory K :=
  let (ps, m) := monic total xs degree m
  let (ns, m) := allNorms ps m
  let columns := List.zipWith (fun p n => p.map (· / root n)) ps ns
  (columns.drop 1, m)

end ModelFormula.Polynomial
