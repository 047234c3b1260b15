import ModelFormula.Datum

/-!
# Flattening nested lists

A list of pending values is worked off from the front, and a list found there is replaced by its
items. The total size of the pending values decreases.
-/
namespace ModelFormula.Datum

theorem sizeOf_append (xs ys : List Datum) :
    sizeOf (xs ++ ys) + 1 = sizeOf xs + sizeOf ys := by
  induction xs with
  | nil => simp; omega
  | cons x xs ih => simp only [List.cons_append, List.cons.sizeOf_spec]; omega

/-- The leaves of the pending values from left to right. -/
def flatten : List Datum → List Datum
  | [] => []
  | list items :: rest => flatten (items ++ rest)
  | d :: rest => d :: flatten rest
termination_by pending => sizeOf pending
decreasing_by
  · have := sizeOf_append items rest
    simp only [List.cons.sizeOf_spec, list.sizeOf_spec]
    omega
  · simp only [List.cons.sizeOf_spec]
    omega

/-- Only lists can be flattened; whatever is empty has no leaves. -/
def flattened? : Datum → Option (List Datum)
  | list items => some (flatten items)
  | d => if d.truthy then none else some []

/-- A value as a list: nothing is the empty list, and what is no list stands alone. -/
def toItems : Datum → List Datum
  | null => []
  | list items => items
  | d => [d]

end ModelFormula.Datum
