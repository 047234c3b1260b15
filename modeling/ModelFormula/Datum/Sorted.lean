import ModelFormula.Datum
import ModelFormula.Error

/-!
# Sorted data

Sorting by binary insertion behind the run that stands at the front already. Numbers that are not
comparable with themselves stay where the search puts them; data of different sorts cannot be
sorted.
-/
namespace ModelFormula.Datum

/-- The order as a yes or no; data without an order are refused before. -/
def before (x y : Datum) : Bool := decide (x < y)

/-- The number of items before the place where an item belongs, behind all equal ones. -/
def insertionPoint (sorted : Array Datum) (x : Datum) : Nat → Nat → Nat → Nat
  | 0, low, _ => low
  | fuel + 1, low, high =>
    if low < high then
      let mid := (low + high) / 2
      match sorted[mid]? with
      | some y =>
        if before x y then insertionPoint sorted x fuel low mid
        else insertionPoint sorted x fuel (mid + 1) high
      | none => low
    else low

def insertSorted (sorted : List Datum) (x : Datum) : List Datum :=
  let place := insertionPoint sorted.toArray x (sorted.length + 1) 0 sorted.length
  sorted.take place ++ x :: sorted.drop place

/-- The longest front without a step down, and the rest. -/
def risingRun : Datum → List Datum → List Datum × List Datum
  | x, [] => ([x], [])
  | x, y :: rest =>
    if before y x then ([x], y :: rest)
    else
      let (run, rest) := risingRun y rest
      (x :: run, rest)

/-- The longest front of steps down, and the rest. -/
def fallingRun : Datum → List Datum → List Datum × List Datum
  | x, [] => ([x], [])
  | x, y :: rest =>
    if before y x then
      let (run, rest) := fallingRun y rest
      (x :: run, rest)
    else ([x], y :: rest)

def sortComparable : List Datum → List Datum
  | [] => []
  | [x] => [x]
  | x :: y :: rest =>
    let (run, rest) :=
      if before y x then
        let (run, rest) := fallingRun x (y :: rest)
        (run.reverse, rest)
      else risingRun x (y :: rest)
    rest.foldl insertSorted run

/-- The data in increasing order. -/
def sorted (xs : List Datum) : Except Fault (List Datum) :=
  match xs with
  | [] => .ok []
  | x :: rest =>
    if rest.all fun y => (x.less? y).isSome then .ok (sortComparable xs) else .error .unsupported

/-- The data without later repetitions. -/
def distinct (xs : List Datum) : List Datum :=
  xs.foldl (fun kept x => if kept.any (· == x) then kept else kept ++ [x]) []

/-- Both lists have the same items. -/
def sameItemsAs (xs ys : List Datum) : Bool :=
  xs.all (fun x => ys.any (· == x)) && ys.all fun y => xs.any (· == y)

end ModelFormula.Datum
