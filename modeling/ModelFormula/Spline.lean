import ModelFormula.Scalar

/-!
# B-splines

A basis of piecewise polynomials over a vector of knots. At a point only the functions of the
interval around it differ from zero; they are computed by raising the degree one by one. Points
outside the knots belong to the first or the last interval. A fit finds the knots: inner ones that
are given or stand at quantiles of the data, between two bounds.
-/
namespace ModelFormula.Spline

section Knots

variable {K : Type} [LT K] [DecidableLT K]

/-- The number of inner knots that degrees of freedom leave; there are none to leave if it is
negative. -/
def innerCount (freedom : Int) (degree : Nat) (intercept : Bool) : Int :=
  freedom - (degree + 1) + if intercept then 0 else 1

/-- The bounds stand in the wrong order. -/
def crossed (lower upper : K) : Bool := decide (upper < lower)

/-- The knots below the lower bound. -/
def below (lower : K) (inner : List K) : List K := inner.filter fun t => decide (t < lower)

/-- The knots above the upper bound. -/
def above (upper : K) (inner : List K) : List K := inner.filter fun t => decide (upper < t)

def ascending (xs : List K) : List K := xs.mergeSort fun a b => !(decide (b < a))

/-- Each bound as often as the degree and one more, and the inner knots, in increasing order. -/
def allKnots (degree : Nat) (lower upper : K) (inner : List K) : List K :=
  ascending (List.replicate (degree + 1) lower ++ List.replicate (degree + 1) upper ++ inner)

end Knots

variable {K : Type} [Scalar K]

def knot (t : List K) (i : Nat) : K := t[i]?.getD (Scalar.ofNat 0)

/-- The number of basis functions of the given degree. -/
def basisSize (t : List K) (degree : Nat) : Nat := t.length - (degree + 1)

/-- The interval of a point: the first whose right end lies beyond the point, else the last. -/
def interval (t : List K) (degree : Nat) (x : K) : Nat :=
  let n := basisSize t degree
  ((List.range (n - degree)).map (degree + ·)).find? (fun l => x < knot t (l + 1)) |>.getD (n - 1)

/-- One degree more: each function passes a part on to its neighbour, and takes over what the one
before it has passed on. -/
def raise (t : List K) (x : K) (l j : Nat) : Nat → K → List K → List K
  | _, passed, [] => [passed]
  | i, passed, h :: rest =>
    let right := knot t (l + i + 1)
    let left := knot t (l + i + 1 - j)
    if right != left then
      let f := h / (right - left)
      (passed + f * (right - x)) :: raise t x l j (i + 1) (f * (x - left)) rest
    else passed :: raise t x l j (i + 1) (Scalar.ofNat 0) rest

/-- The functions of one interval at a point. -/
def intervalBasis (t : List K) (x : K) (l : Nat) : Nat → List K
  | 0 => [Scalar.ofNat 1]
  | j + 1 => raise t x l (j + 1) 0 (Scalar.ofNat 0) (intervalBasis t x l j)

/-- The combination of the basis functions with the given coefficients. -/
def value (t : List K) (coefficients : List K) (degree : Nat) (x : K) : K :=
  let l := interval t degree x
  let h := intervalBasis t x l degree
  let c (q : Nat) : K := coefficients[l - degree + q]?.getD (Scalar.ofNat 0)
  (h.zipIdx.map fun (hq, q) => c q * hq).foldl (· + ·) (Scalar.ofNat 0)

def unitVector (n i : Nat) : List K :=
  (List.range n).map fun j => Scalar.ofNat (if j = i then 1 else 0)

/-- All basis functions at a point. -/
def basisRow (t : List K) (degree : Nat) (x : K) : List K :=
  let n := basisSize t degree
  (List.range n).map fun i => value t (unitVector n i) degree x

/-- The first basis function is left out unless the intercept is wanted. -/
def row (t : List K) (degree : Nat) (intercept : Bool) (x : K) : List K :=
  if intercept then basisRow t degree x else (basisRow t degree x).drop 1

def width (t : List K) (degree : Nat) (intercept : Bool) : Nat :=
  if intercept then basisSize t degree else basisSize t degree - 1

def eval (t : List K) (degree : Nat) (intercept : Bool) (xs : List K) : List (List K) :=
  xs.map (row t degree intercept)

/-- Between two numbers, computed from the nearer one. -/
def between (a b t : K) : K :=
  if t < Scalar.ofNat 1 / Scalar.ofNat 2 then a + (b - a) * t
  else b - (b - a) * (Scalar.ofNat 1 - t)

/-- The number at a place between 0 and 1 of a sorted list. -/
def quantile (sorted : List K) (q : K) : K :=
  let position := q * Scalar.ofNat (sorted.length - 1)
  let below := Scalar.floor position
  match sorted[below]?, sorted[below + 1]? with
  | some a, some b => between a b (position - Scalar.ofNat below)
  | _, _ => sorted.getLast?.getD (Scalar.ofNat 0)

/-- Inner knots at equally spaced quantiles. -/
def innerKnots (sorted : List K) (count : Nat) : List K :=
  let step : K := Scalar.ofNat 1 / Scalar.ofNat (count + 1)
  (List.range count).map fun i =>
    quantile sorted (Scalar.ofNat 100 * (Scalar.ofNat (i + 1) * step) / Scalar.ofNat 100)

/-- Quantiles of numbers in any order. One that differs from itself takes the place of all. -/
def quantileKnots (xs : List K) (count : Nat) : List K :=
  match xs.find? fun x => x != x with
  | some missing => List.replicate count missing
  | none => innerKnots (ascending xs) count

/-! ### Fits -/

/-- Why arguments do not make a spline. -/
inductive Refusal (K : Type) where
  | noKnots
  | few (least : Int)
  | miscounted (implied : Int) (provided : Nat)
  | noData
  | crossed (lower upper : K)
  | below (knots : List K) (lower : K)
  | above (knots : List K) (upper : K)

/-- The arguments of a fit to numbers `N` with knots `K`. What can fail is only looked at when it is
needed. -/
structure Arguments (ε N K : Type) where
  freedom : Option Int
  degree : Nat
  intercept : Except ε Bool
  /-- How many inner knots were given, and which. -/
  given : Option (Except ε Nat × Except ε (List K))
  /-- The data, of which that many quantiles are wanted. -/
  numbers : Nat → Except ε (List N)
  ofNumber : N → K
  lower : Except ε K
  upper : Except ε K
  comparable : List K → K → Except ε Unit
  refuse : Refusal K → ε

variable {ε N : Type} [Scalar N]

/-- The inner knots. Where degrees of freedom and knots are given, there must be as many knots as
the degrees of freedom imply. -/
def Arguments.inner {K : Type} (args : Arguments ε N K) : Except ε (Except ε (List K)) := do
  match args.freedom, args.given with
  | none, none => throw (args.refuse .noKnots)
  | none, some (_, knots) => return knots
  | some freedom, given =>
    let count := innerCount freedom args.degree (← args.intercept)
    if count < 0 then throw (args.refuse (.few (freedom - count)))
    match given with
    | some (provided, knots) =>
      let provided ← provided
      unless count = provided do throw (args.refuse (.miscounted count provided))
      return knots
    | none =>
      let xs ← args.numbers count.toNat
      if 0 < count && xs.isEmpty then throw (args.refuse .noData)
      return .ok ((quantileKnots xs count.toNat).map args.ofNumber)

/-- All knots, if the bounds are in order and the inner knots between them. -/
def fit {K : Type} [LT K] [DecidableLT K] (args : Arguments ε N K) : Except ε (List K) := do
  let inner ← args.inner
  let lower ← args.lower
  let upper ← args.upper
  args.comparable [upper] lower
  if crossed lower upper then throw (args.refuse (.crossed lower upper))
  let inner ← inner
  args.comparable inner lower
  unless (below lower inner).isEmpty do throw (args.refuse (.below (below lower inner) lower))
  args.comparable inner upper
  unless (above upper inner).isEmpty do throw (args.refuse (.above (above upper inner) upper))
  return allKnots args.degree lower upper inner

end ModelFormula.Spline
