/-!
# Sublists

The sublists of a list, by size and within one size in the lexicographic order of positions. They
are listed in this order, or found by a recursion and sorted.
-/
namespace ModelFormula

/-- The sublists with the given number of items, those that take earlier items first. -/
def sublistsOfSize {α : Type} : Nat → List α → List (List α)
  | 0, _ => [[]]
  | _ + 1, [] => []
  | n + 1, x :: xs => (sublistsOfSize n xs).map (x :: ·) ++ sublistsOfSize (n + 1) xs

/-- All sublists, short ones first. -/
def sortedSublists {α : Type} (xs : List α) : List (List α) :=
  (List.range (xs.length + 1)).flatMap (sublistsOfSize · xs)

mutual

/-- All sublists, found with numbered items and sorted by the numbers and then by size. What has one
number is one item, so that items are never compared. -/
def sortedSubsets {α : Type} (xs : List α) : List (List α) :=
  let byNumber := (splitSubsets xs.zipIdx).mergeSort fun ys zs =>
    !(zs.map (·.2)).lex (ys.map (·.2))
  (byNumber.mergeSort fun ys zs => ys.length ≤ zs.length).map (·.map (·.1))
termination_by (xs.length, 1)

/-- Each sublist of the tail without the head and with it. -/
def splitSubsets {α : Type} : List α → List (List α)
  | [] => [[]]
  | x :: xs => (sortedSubsets xs).flatMap fun ys => [ys, x :: ys]
termination_by xs => (xs.length, 0)

end

/-- All choices of one item from each list, the last of which varies fastest. -/
def choices {α : Type} : List (List α) → List (List α)
  | [] => [[]]
  | xs :: rest => xs.flatMap fun x => (choices rest).map (x :: ·)

end ModelFormula
